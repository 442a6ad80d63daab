import Mathlib.Data.Rat.Cast.Order
import Mathlib.Tactic.Linarith
import UniSdk.Library.Rates
import UniSdk.Planner.Machine

/-!
# Low-power idle

With power management `tlk_task_idle` asks for a sleep up to the next event and, when it wakes up,
moves the machine timer on by what the system timer has counted. The duration is computed from a
second reading of the clock and from a truncated rate, and the count of the system timer is 32 bits
wide: the sleep may reach past the event, and time is lost when the system timer turns over.
-/

namespace UniSdk.Planner

open Library.Words Library.Runs Library.Rates Machine

variable {n : Nat} {φ α : Type}

/-! ## The duration of a sleep -/

/-- `sleep_duration_ms` for the compare value `mtimecmp`. -/
def sleepDurationMs (c : PlannerConfig) (mtimecmp now : Nat) : Nat :=
  u32 (u64 (mtimecmp + (2 ^ 64 - now)) / (c.mtimerCyclesPerSecond / 1000))

/-- A sleep of `ms` milliseconds from `now` on ends at the event, or it takes no time. -/
def EndsBefore (c : PlannerConfig) (mtimecmp now ms : Nat) : Prop :=
  (now : ℚ) + ms * c.mtimerCyclesPerSecond / 1000 ≤ max (mtimecmp : ℚ) now

/-- The event is not earlier than the second reading of the clock, and what the rate leaves out of
the milliseconds fits into what the division leaves out of the span, unless 32 bits are too few for
the milliseconds anyway. Past the event the wrapped span must leave nothing of them. -/
def SleepFits (c : PlannerConfig) (mtimecmp now : Nat) : Prop :=
  (now ≤ mtimecmp ∧
    (2 ^ 32 ≤ (mtimecmp - now) / (c.mtimerCyclesPerSecond / 1000) ∨
      (mtimecmp - now) / (c.mtimerCyclesPerSecond / 1000) * (c.mtimerCyclesPerSecond % 1000) ≤
        1000 * ((mtimecmp - now) % (c.mtimerCyclesPerSecond / 1000)))) ∨
  (mtimecmp < now ∧
    u32 ((2 ^ 64 - (now - mtimecmp)) / (c.mtimerCyclesPerSecond / 1000)) = 0)

instance (c : PlannerConfig) (mtimecmp now : Nat) : Decidable (SleepFits c mtimecmp now) :=
  inferInstanceAs (Decidable (_ ∨ _))

theorem endsBefore_iff (c : PlannerConfig) (mtimecmp now ms : Nat) :
    EndsBefore c mtimecmp now ms ↔
      1000 * now + ms * c.mtimerCyclesPerSecond ≤ 1000 * max mtimecmp now := by
  have hscale : ∀ a b m : ℚ, a + b / 1000 ≤ m ↔ 1000 * a + b ≤ 1000 * m := by
    intro a b m
    constructor <;> intro h <;> linarith
  unfold EndsBefore
  rw [hscale]
  exact_mod_cast Iff.rfl

theorem sleepDuration_endsBefore_iff {c : PlannerConfig} (hrate : 1000 ≤ c.mtimerCyclesPerSecond)
    {mtimecmp now : Nat} (hcmp : mtimecmp < 2 ^ 64) (hnow : now < 2 ^ 64) :
    EndsBefore c mtimecmp now (sleepDurationMs c mtimecmp now) ↔ SleepFits c mtimecmp now := by
  have hk : 0 < c.mtimerCyclesPerSecond / 1000 := Nat.div_pos hrate (by decide)
  have hsplit := Nat.div_add_mod c.mtimerCyclesPerSecond 1000
  rw [endsBefore_iff, SleepFits, sleepDurationMs]
  by_cases hle : now ≤ mtimecmp
  · have hspan : u64 (mtimecmp + (2 ^ 64 - now)) = mtimecmp - now := by
      unfold u64
      omega
    have hiff := narrow_rate_le_iff (m := 1000) (k := c.mtimerCyclesPerSecond / 1000)
      (r := c.mtimerCyclesPerSecond % 1000) (b := 2 ^ 32) (mtimecmp - now)
      (Nat.le_of_lt (Nat.mod_lt _ (by decide))) hk (by decide)
    rw [hsplit] at hiff
    simp only [hle, Nat.not_lt.mpr hle, true_and, false_and, or_false]
    rw [← hiff, hspan, u32, Nat.max_eq_left hle]
    omega
  · have hspan : u64 (mtimecmp + (2 ^ 64 - now)) = 2 ^ 64 - (now - mtimecmp) := by
      unfold u64
      omega
    simp only [hle, Nat.lt_of_not_le hle, true_and, false_and, false_or]
    rw [hspan, Nat.max_eq_right (by omega)]
    constructor
    · intro h
      have hzero : u32 ((2 ^ 64 - (now - mtimecmp)) / (c.mtimerCyclesPerSecond / 1000)) *
          c.mtimerCyclesPerSecond = 0 := by omega
      exact (Nat.mul_eq_zero.mp hzero).resolve_right (by omega)
    · intro h
      rw [h, Nat.zero_mul]
      exact Nat.le_refl _

def Loc.isIdle : Loc φ α → Bool
  | .idle _ => true
  | _ => false

/-- What the locals hold in an execution of `tlk_task_idle` that has read the compare value
`mtimecmp`. -/
def Loc.IdlesFor (c : PlannerConfig) (mtimecmp : Nat) : Loc φ α → Prop
  | .idle (.testTime m) | .idle (.testWork m) | .idle (.pmNow m) => m = mtimecmp
  | .idle (.pmTick m now) => m = mtimecmp ∧ now < 2 ^ 64
  | .idle (.pmSleep now _ ms) => now < 2 ^ 64 ∧ ms = sleepDurationMs c mtimecmp now
  | .idle (.pmSetMtime _ _) | .idle .wfi => True
  | _ => False

section Idle

variable {c : PlannerConfig} {s s' : Machine n φ α}

theorem idleStep_idlesFor {mtimecmp : Nat} {pc : IdleLoc} {a : Action n φ α}
    (h : idleStep c s pc a = some s') (hidle : s'.loc.isIdle = true)
    (hi : (Loc.idle pc : Loc φ α).IdlesFor c mtimecmp) : s'.loc.IdlesFor c mtimecmp := by
  unfold idleStep at h
  split at h
  · cases hi
  · cases hi
  · cases h
    dsimp only [goto] at hidle ⊢
    split at hidle
    · next htest => rw [if_pos htest]; exact hi
    · cases hidle
  · cases h
    dsimp only [goto] at hidle ⊢
    split at hidle
    · cases hidle
    · next hwork =>
      rw [if_neg hwork]
      split
      · exact hi
      · trivial
  · cases h
    exact ⟨hi, u64_lt _⟩
  · cases h
    obtain ⟨rfl, hnow⟩ := hi
    exact ⟨hnow, rfl⟩
  · cases h
    dsimp only [goto]
    split <;> trivial
  · cases h
    cases hidle
  · cases h
    cases hidle
  · cases h

theorem machineStep_idlesFor {mtimecmp : Nat} {a : Action n φ α}
    (h : machineStep c s a = some s') (hidle : s'.loc.isIdle = true)
    (hi : s.loc.IdlesFor c mtimecmp) : s'.loc.IdlesFor c mtimecmp := by
  obtain ⟨shared, rfl, -⟩ | ⟨-, wake, active, rfl, -⟩ | hret | ⟨pc, hloc, hstep⟩ |
    ⟨-, hpass⟩ := machineStep_cases h
  · exact hi
  · exact hi
  · unfold bodyReturn at hret
    split at hret
    · next hloc => rw [hloc] at hi; cases hi
    · next hloc => rw [hloc] at hi; cases hi
    · cases hret
  · rw [hloc] at hi
    exact idleStep_idlesFor hstep hidle hi
  · cases hloc : s.loc with
    | idle pc => rw [hloc] at hpass; cases hpass
    | _ => rw [hloc] at hi; cases hi

/-- **When low-power idle keeps to the next event.** In every execution of `tlk_task_idle`, whatever
happens between its statements, the sleep that it asks for ends at the event it has read exactly
when the milliseconds fit the truncated rate and the event has not gone by in the meantime. -/
theorem sleep_ends_before_event_iff (hrate : 1000 ≤ c.mtimerCyclesPerSecond) {mtimecmp : Nat}
    (hcmp : mtimecmp < 2 ^ 64) (hloc : s.loc = .idle (.testTime mtimecmp))
    {acts : List (Action n φ α)}
    (run : Run (machineStep c) (fun _ _ t => t.loc.isIdle = true) s acts s') {now tick ms : Nat}
    (hsleep : s'.loc = .idle (.pmSleep now tick ms)) :
    EndsBefore c mtimecmp now ms ↔ SleepFits c mtimecmp now := by
  have hstart : s.loc.IdlesFor c mtimecmp := by
    rw [hloc]
    exact rfl
  have hinv := run.invariant (P := fun t => t.loc.IdlesFor c mtimecmp) hstart
    fun _ _ _ hstep hidle hi => machineStep_idlesFor hstep hidle hi
  rw [hsleep] at hinv
  obtain ⟨hnow, rfl⟩ := hinv
  exact sleepDuration_endsBefore_iff hrate hcmp hnow

end Idle

/-- A build with power management and a machine timer of `rate` ticks a second. -/
def pmConfig (rate : Nat) : PlannerConfig :=
  { smallConfig 1 (by decide) with pm := true, mtimerCyclesPerSecond := rate }

/-- The idle function has read the compare value `mtimecmp` at clock zero. -/
def idleAt (rate mtimecmp : Nat) : Machine 0 Unit Unit :=
  { Machine.load (pmConfig rate) (bootAtZero 0) fun _ => true with
    loc := .idle (.testTime mtimecmp) }

theorem sleep_ends_before_event_24MHz :
    ∃ s : Machine 0 Unit Unit,
      Run (machineStep (pmConfig 24000000)) (fun _ _ t => t.loc.isIdle = true)
        (idleAt 24000000 100000) [.step, .step, .tick 3, .step, .stimer 7] s ∧
      s.loc = .idle (.pmSleep 3 7 4) ∧ EndsBefore (pmConfig 24000000) 100000 3 4 := by
  have hrun : ∃ s : Machine 0 Unit Unit,
      Run (machineStep (pmConfig 24000000)) (fun _ _ t => t.loc.isIdle = true)
        (idleAt 24000000 100000) [.step, .step, .tick 3, .step, .stimer 7] s ∧
      s.loc = .idle (.pmSleep 3 7 4) := by
    apply exists_run_of_follow (fun s : Machine 0 Unit Unit => s.loc = .idle (.pmSleep 3 7 4))
    decide +kernel
  obtain ⟨s, run, hsleep⟩ := hrun
  exact ⟨s, run, hsleep,
    (sleep_ends_before_event_iff (by decide) (by decide) rfl run hsleep).mpr (by decide)⟩

/-- A machine timer of 32768 ticks a second, whose next event is 32 ticks away. The idle function
asks for one millisecond, which takes 32.768 ticks. -/
theorem sleep_past_event :
    ∃ s : Machine 0 Unit Unit,
      Run (machineStep (pmConfig 32768)) (fun _ _ t => t.loc.isIdle = true)
        (idleAt 32768 32) [.step, .step, .step, .stimer 0] s ∧
      s.loc = .idle (.pmSleep 0 0 1) ∧ ¬ EndsBefore (pmConfig 32768) 32 0 1 := by
  have hrun : ∃ s : Machine 0 Unit Unit,
      Run (machineStep (pmConfig 32768)) (fun _ _ t => t.loc.isIdle = true)
        (idleAt 32768 32) [.step, .step, .step, .stimer 0] s ∧
      s.loc = .idle (.pmSleep 0 0 1) := by
    apply exists_run_of_follow (fun s : Machine 0 Unit Unit => s.loc = .idle (.pmSleep 0 0 1))
    decide +kernel
  obtain ⟨s, run, hsleep⟩ := hrun
  refine ⟨s, run, hsleep, ?_⟩
  rw [endsBefore_iff]
  decide

/-! ## The time after a sleep -/

/-- `TLK_DIV_ROUND_UP` on 64-bit words. -/
def tlkDivRoundUp (value divisor : Nat) : Nat := u64 (value + divisor - 1) / divisor

/-- `TLK_TICK_HF_RC_TICKS_FROM_MS` and `TLK_TICK_32K_TICKS_FROM_MS`, for a counter of `clock` ticks
a second. -/
def tlkTickTicksFromMs (clock ms : Nat) : Nat := tlkDivRoundUp (u64 (ms * clock)) 1000

/-- `enum tlk_pm_tick_mode`. -/
inductive TlkPmTickMode
  | stimer
  | clock32k
  deriving DecidableEq, Repr

/-- `struct tlk_pm_sleep_tick`. -/
structure TlkPmSleepTick where
  ticks : Nat
  tickBase : Nat
  mode : TlkPmTickMode
  deriving DecidableEq, Repr

/-- `TLK_PM_SLEEP_MS_TICKS`: the system timer counts the sleep if its 32 bits reach that far, else
the 32 kHz counter does, whose frequency is `clock32k`. -/
def tlkPmSleepMsTicks (c : PlannerConfig) (clock32k ms : Nat) : TlkPmSleepTick :=
  let hf := tlkTickTicksFromMs c.stimerTick1S ms
  if hf ≤ 2 ^ 32 - 1 then { ticks := u32 hf, tickBase := c.stimerTick1S, mode := .stimer }
  else
    { ticks := u32 (tlkTickTicksFromMs clock32k ms), tickBase := clock32k, mode := .clock32k }

/-- `systicks_to_mticks`. -/
def systicksToMticks (c : PlannerConfig) (sticks : Nat) : Nat :=
  u64 (sticks * c.mtimerCyclesPerSecond) / c.stimerTick1S

/-- The frequencies of the two timers are positive 32-bit constants. -/
structure ClockRates (c : PlannerConfig) : Prop where
  mtimer_pos : 0 < c.mtimerCyclesPerSecond
  mtimer_lt : c.mtimerCyclesPerSecond < 2 ^ 32
  stimer_pos : 0 < c.stimerTick1S
  stimer_lt : c.stimerTick1S < 2 ^ 32

/-- Something that happens during a sleep: time passes, or a handler runs. -/
def Action.outside : Action n φ α → Bool
  | .tick _ | .isr _ | .msi => true
  | _ => false

section Wakeup

variable {c : PlannerConfig} {s s₁ s₂ s' : Machine n φ α}

theorem outside_loc {a : Action n φ α} (h : machineStep c s a = some s')
    (ha : a.outside = true) : s'.loc = s.loc := by
  cases a with
  | tick d => cases h; rfl
  | isr call => cases h; rfl
  | msi => cases h; rfl
  | _ => cases ha

/-- The difference of two readings of the system timer is what it has counted modulo `2^32`. -/
theorem stimer_difference {tick : Nat} (elapsed : Nat) (htick : tick < 2 ^ 32) :
    u32 (u32 (tick + elapsed) + (2 ^ 32 - tick)) = u32 elapsed := by
  unfold u32
  omega

/-- A sleep that lasts as long as was asked for is one of the system timer exactly when the system
timer does not turn over in it. -/
theorem sleep_by_stimer_iff (c : PlannerConfig) (clock32k ms : Nat) :
    (tlkPmSleepMsTicks c clock32k ms).mode = .stimer ↔
      tlkTickTicksFromMs c.stimerTick1S ms < 2 ^ 32 := by
  unfold tlkPmSleepMsTicks
  dsimp only
  split
  · next hle => exact iff_of_true rfl (by omega)
  · next hgt => exact iff_of_false nofun (by omega)

/-- The clock after a sleep, before it is written to the 64-bit register. -/
theorem systicks_exact_iff (hrates : ClockRates c) (elapsed now : Nat) :
    u64 (now + systicksToMticks c (u32 elapsed)) =
        now + elapsed * c.mtimerCyclesPerSecond / c.stimerTick1S ↔
      elapsed < 2 ^ 32 ∧
        now + elapsed * c.mtimerCyclesPerSecond / c.stimerTick1S < 2 ^ 64 := by
  have hwide : u64 (u32 elapsed * c.mtimerCyclesPerSecond) =
      elapsed % 2 ^ 32 * c.mtimerCyclesPerSecond := by
    refine u64_of_lt ?_
    calc u32 elapsed * c.mtimerCyclesPerSecond < 2 ^ 32 * 2 ^ 32 :=
          Nat.mul_lt_mul'' (Nat.mod_lt _ (by decide)) hrates.mtimer_lt
      _ = 2 ^ 64 := by decide
  have hturn : c.stimerTick1S ≤ 2 ^ 32 * c.mtimerCyclesPerSecond :=
    Nat.le_trans (Nat.le_of_lt hrates.stimer_lt)
      (Nat.le_mul_of_pos_right _ hrates.mtimer_pos)
  have hscaled := scaled_mod_iff elapsed hrates.stimer_pos hturn (by decide)
  rw [systicksToMticks, hwide]
  constructor
  · intro h
    have hlt := u64_lt (now + elapsed % 2 ^ 32 * c.mtimerCyclesPerSecond / c.stimerTick1S)
    have hle : u64 (now + elapsed % 2 ^ 32 * c.mtimerCyclesPerSecond / c.stimerTick1S) ≤
        now + elapsed % 2 ^ 32 * c.mtimerCyclesPerSecond / c.stimerTick1S := Nat.mod_le _ _
    rw [h] at hlt hle
    exact ⟨hscaled.mp (Nat.le_of_add_le_add_left hle), hlt⟩
  · rintro ⟨hshort, hlt⟩
    rw [Nat.mod_eq_of_lt hshort]
    exact u64_of_lt hlt

/-- **When low-power idle keeps the time.** After a sleep of any length asked for, in which the
system timer has counted `elapsed` ticks, the machine timer is set to the time that has passed
exactly when these ticks are fewer than `2^32` and the machine timer does not overflow. -/
theorem idle_keeps_time_iff (hrates : ClockRates c) {now tick ms : Nat} (htick : tick < 2 ^ 32)
    (elapsed : Nat) (hloc : s.loc = .idle (.pmSleep now tick ms))
    (hsleep : machineStep c s (.sleep true) = some s₁) {acts : List (Action n φ α)}
    (hmeanwhile : Run (machineStep c) (fun _ a _ => a.outside = true) s₁ acts s₂)
    (hwake : machineStep c s₂ (.stimer (u32 (tick + elapsed))) = some s') :
    s'.shared.mtime = now + elapsed * c.mtimerCyclesPerSecond / c.stimerTick1S ↔
      elapsed < 2 ^ 32 ∧
        now + elapsed * c.mtimerCyclesPerSecond / c.stimerTick1S < 2 ^ 64 := by
  have hloc₁ : s₁.loc = .idle (.pmSetMtime now tick) := by
    simp only [machineStep, hloc] at hsleep
    cases hsleep
    rfl
  have hloc₂ : s₂.loc = .idle (.pmSetMtime now tick) :=
    hmeanwhile.invariant (P := fun t => t.loc = .idle (.pmSetMtime now tick)) hloc₁
      fun _ _ _ hstep ha hi => (outside_loc hstep ha).trans hi
  have hset : s'.shared.mtime = u64 (now + systicksToMticks c (u32 elapsed)) := by
    simp only [machineStep, hloc₂] at hwake
    cases hwake
    rw [← stimer_difference elapsed htick]
    rfl
  rw [hset]
  exact systicks_exact_iff hrates elapsed now

end Wakeup

/-- The idle function calls `TLK_PM_SLEEP_MS` for `ms` milliseconds at clock zero. -/
def asleepFor (ms : Nat) : Machine 0 Unit Unit :=
  { Machine.load (pmConfig 24000000) (bootAtZero 0) fun _ => true with
    loc := .idle (.pmSleep 0 5 ms) }

theorem clockRates_24MHz : ClockRates (pmConfig 24000000) :=
  ⟨by decide, by decide, by decide, by decide⟩

theorem idle_keeps_time_one_second :
    ∃ s s' : Machine 0 Unit Unit,
      machineStep (pmConfig 24000000) (asleepFor 1000) (.sleep true) = some s ∧
      machineStep (pmConfig 24000000) s (.stimer (u32 (5 + 24000000))) = some s' ∧
      s'.shared.mtime = 0 + 24000000 * 24000000 / 24000000 := by
  have hsteps : ∃ s s' : Machine 0 Unit Unit,
      machineStep (pmConfig 24000000) (asleepFor 1000) (.sleep true) = some s ∧
      machineStep (pmConfig 24000000) s (.stimer (u32 (5 + 24000000))) = some s' :=
    ⟨_, _, rfl, rfl⟩
  obtain ⟨s, s', hsleep, hwake⟩ := hsteps
  exact ⟨s, s', hsleep, hwake,
    (idle_keeps_time_iff clockRates_24MHz (by decide) 24000000 rfl hsleep (.nil s) hwake).mpr
      (by decide)⟩

/-- A sleep of 178957 ms, which the 32 kHz counter has to serve. The system timer counts
4294968000 ticks, and the machine timer is set to 704. -/
theorem long_sleep_loses_time :
    (tlkPmSleepMsTicks (pmConfig 24000000) 32000 178957).mode = .clock32k ∧
    tlkTickTicksFromMs 24000000 178957 = 4294968000 ∧
    ∃ s s' : Machine 0 Unit Unit,
      machineStep (pmConfig 24000000) (asleepFor 178957) (.sleep true) = some s ∧
      machineStep (pmConfig 24000000) s (.stimer (u32 (5 + 4294968000))) = some s' ∧
      s'.shared.mtime = 704 ∧ s'.shared.mtime ≠ 0 + 4294968000 * 24000000 / 24000000 :=
  ⟨by decide, by decide, _, _, rfl, rfl, by decide, by decide⟩

end UniSdk.Planner
