import UniSdk.Core.MtimerCompare
import UniSdk.Core.NestedTraps

/-!
# The sleep call

`tlk_api_sleep` without power management: it reads the machine timer, sets the compare register to
the end of the sleep, enables the timer interrupt and waits until the timer has come that far. The
timer interrupt is handled by a callback that disables it and sets the compare register one tick
ahead. The call and the handlers run one statement at a time, on a hart that may take an interrupt
wherever MSTATUS.MIE, the MIE register and the source allow it. This module settles how long the
call waits.
-/

namespace UniSdk.Core

open Library.Words Library.Runs

/-- `UNISDK_MTIMER_CYCLES_PER_SECOND`, the handlers that nest (`CONFIG_TLK_MTIMER_IRQ_USE_NEST` and
its two siblings), and what each lets in. -/
structure SleepConfig where
  cyclesPerSecond : Nat
  useNest : Interrupt → Bool
  nest : NestConfig
  hw : Hardware

/-- `TLK_API_CONVERT_MS_DELAY_TO_TICKS(ms)`. -/
def tlkApiConvertMsDelayToTicks (c : SleepConfig) (ms : Nat) : Nat :=
  u32 (u64 (ms * c.cyclesPerSecond) / 1000)

/-- The statement of `tlk_api_sleep` that runs next, after the test of the duration. The two
statements of `tlk_core_interrupt_enable` are apart. -/
inductive SleepStmt
  | readTime
  | setCompare (loc : SetCompareLoc)
  | mieEnable
  | mstatusEnable
  | meieEnable
  | loopTest
  | wfi
  deriving DecidableEq, Repr

/-- The statement of a handler that runs next: the entry with nesting, the callback, the exit with
nesting and `mret`. `callback` is the whole callback of a source other than the timer; the three
locations after it are `tlk_api_time_handle_mtimer_callback`. -/
inductive IsrLoc
  | saveContext
  | maskMie
  | setMstatus
  | callback
  | mieDisable
  | getMtime
  | setCompare (loc : SetCompareLoc)
  | clearMstatus
  | restoreContext
  | mret
  deriving DecidableEq, Repr

/-- A handler in execution, with the result of `tlk_core_save_nested_context`. -/
structure IsrFrame where
  source : Interrupt
  saved : Option Csrs
  loc : IsrLoc

/-- The hart, with the statics of `tlk_sleep.c`. The handler on top of `frames` runs, or the task
context when there is none; `task` is the duration and the statement of the open call. The last two
fields are history: the timer interrupts taken since each enable of MTIE by a call, the last enable
first, and whether one has been taken since the last call wrote the high word of its deadline. -/
structure SleepHart where
  mtime : Nat
  compare : CompareReg
  csrs : Csrs
  currentTime : Nat
  task : Option (Nat × SleepStmt)
  frames : List IsrFrame
  windows : List Nat
  rearmed : Bool

/-- `write` is a write of MSTATUS.MIE and of the enables other than MTIE, by the callback of another
source or by the task context outside the call. -/
inductive SleepAction
  | tick (d : Nat)
  | interrupt (source : Interrupt) (pc : Nat)
  | sleep (durationMs : Nat)
  | exec
  | write (msie meie en : Bool)

/-- `TLK_FLD_MIE_MTIE` and `TLK_FLD_MIE_MEIE`. -/
def tlkFldMieMtie : Mie := ⟨false, true, false⟩

def tlkFldMieMeie : Mie := ⟨false, false, true⟩

namespace SleepHart

def setMie (mie : Mie) (s : SleepHart) : SleepHart := { s with csrs := { s.csrs with mie } }

def setMstatusMie (en : Bool) (s : SleepHart) : SleepHart :=
  { s with csrs := { s.csrs with mstatus := { s.csrs.mstatus with mie := en } } }

/-- The value of a reading by `tlk_mtimer_get_mtime`, which is atomic. -/
def getMtime (s : SleepHart) : Nat := u64 s.mtime

/-- `current_time + sleep_duration_tick`. -/
def deadline (c : SleepConfig) (durationMs : Nat) (s : SleepHart) : Nat :=
  u64 (s.currentTime + tlkApiConvertMsDelayToTicks c durationMs)

/-- A machine timer interrupt is pending once the clock has reached the compare value; other
sources may be pending at any time. -/
def pending (s : SleepHart) : Interrupt → Bool
  | .timer => decide (s.compare.value ≤ s.getMtime)
  | _ => true

def takes (s : SleepHart) (source : Interrupt) : Bool :=
  s.csrs.mstatus.mie && s.csrs.mie.enabled source && s.pending source

/-- A callback of another source runs, or the task context outside the call. -/
def foreignRuns (s : SleepHart) : Bool :=
  match s.frames, s.task with
  | [], none => true
  | f :: _, _ => f.loc == .callback
  | [], some _ => false

/-- One more interrupt since the last enable. -/
def countInterrupt : List Nat → List Nat
  | [] => []
  | w :: ws => (w + 1) :: ws

/-- The history after an interrupt is taken. -/
def noteInterrupt (source : Interrupt) (s : SleepHart) : SleepHart :=
  match source with
  | .timer => { s with windows := countInterrupt s.windows, rearmed := true }
  | _ => s

end SleepHart

/-- The mask of MIE in the handler of a source. -/
def isrMieMask (c : SleepConfig) : Interrupt → Mie
  | .timer => tlkMtimerMieMask c.nest
  | .software => tlkPlicSwMieMask c.nest
  | .external => tlkPlicMieMask c.nest

/-- The first statement of the callback. -/
def isrBody : Interrupt → IsrLoc
  | .timer => .mieDisable
  | _ => .callback

def isrEntry (c : SleepConfig) (source : Interrupt) : IsrLoc :=
  if c.useNest source then .saveContext else isrBody source

/-- The statement after the callback. -/
def isrExit (c : SleepConfig) (source : Interrupt) : IsrLoc :=
  if c.useNest source then .clearMstatus else .mret

/-- An interrupt is taken. -/
def SleepHart.trap (c : SleepConfig) (source : Interrupt) (pc : Nat) (s : SleepHart) : SleepHart :=
  { s.noteInterrupt source with
    csrs := s.csrs.trapEntry c.hw .machine pc
    frames := ⟨source, none, isrEntry c source⟩ :: s.frames }

/-- One statement of the handler on top. -/
def isrStep (c : SleepConfig) (s : SleepHart) (f : IsrFrame) (rest : List IsrFrame) :
    IsrLoc → Option SleepHart
  | .saveContext =>
    some { s with frames := { f with saved := some s.csrs, loc := .maskMie } :: rest }
  | .maskMie =>
    some { s.setMie ((isrMieMask c f.source).and s.csrs.mie) with
      frames := { f with loc := .setMstatus } :: rest }
  | .setMstatus =>
    some { s.setMstatusMie true with frames := { f with loc := isrBody f.source } :: rest }
  | .callback => some { s with frames := { f with loc := isrExit c f.source } :: rest }
  | .mieDisable =>
    some { s.setMie (tlkCoreMieDisable tlkFldMieMtie s.csrs.mie).2 with
      frames := { f with loc := .getMtime } :: rest }
  | .getMtime =>
    some { s with
      frames := { f with loc := .setCompare (.max (u64 (s.getMtime + 1))) } :: rest }
  | .setCompare loc =>
    some { s with
      compare := (tlkMtimerSetMtimeCompareStep s.compare loc).1
      frames := { f with
        loc := match (tlkMtimerSetMtimeCompareStep s.compare loc).2 with
          | some next => .setCompare next
          | none => isrExit c f.source } :: rest }
  | .clearMstatus =>
    some { s.setMstatusMie false with frames := { f with loc := .restoreContext } :: rest }
  | .restoreContext =>
    match f.saved with
    | none => none
    | some csrs => some { s with csrs, frames := { f with loc := .mret } :: rest }
  | .mret => some { s with csrs := s.csrs.mret c.hw, frames := rest }

/-- One statement of `tlk_api_sleep`. A `wfi` may end at any time. -/
def tlkApiSleepStep (c : SleepConfig) (s : SleepHart) (durationMs : Nat) : SleepStmt → SleepHart
  | .readTime =>
    { s with
      currentTime := s.getMtime
      task := some (durationMs, .setCompare
        (.max (u64 (s.getMtime + tlkApiConvertMsDelayToTicks c durationMs)))) }
  | .setCompare loc =>
    { s with
      compare := (tlkMtimerSetMtimeCompareStep s.compare loc).1
      task := some (durationMs,
        match (tlkMtimerSetMtimeCompareStep s.compare loc).2 with
        | some next => .setCompare next
        | none => .mieEnable)
      rearmed := match loc with
        | .high _ => false
        | _ => s.rearmed }
  | .mieEnable =>
    { s.setMie (tlkCoreMieEnable tlkFldMieMtie s.csrs.mie) with
      task := some (durationMs, .mstatusEnable)
      windows := 0 :: s.windows }
  | .mstatusEnable => { s.setMstatusMie true with task := some (durationMs, .meieEnable) }
  | .meieEnable =>
    { s.setMie (tlkCoreMieEnable tlkFldMieMeie s.csrs.mie) with
      task := some (durationMs, .loopTest) }
  | .loopTest =>
    { s with
      task := if s.getMtime < s.deadline c durationMs then some (durationMs, .wfi) else none }
  | .wfi => { s with task := some (durationMs, .loopTest) }

def sleepStep (c : SleepConfig) (s : SleepHart) : SleepAction → Option SleepHart
  | .tick d => some { s with mtime := s.mtime + d }
  | .interrupt source pc =>
    if s.takes source then some (s.trap c source pc) else none
  | .sleep durationMs =>
    match s.frames, s.task with
    | [], none =>
      some { s with task := if durationMs < 1 then none else some (durationMs, .readTime) }
    | _, _ => none
  | .exec =>
    match s.frames, s.task with
    | f :: rest, _ => isrStep c s f rest f.loc
    | [], some (durationMs, stmt) => some (tlkApiSleepStep c s durationMs stmt)
    | [], none => none
  | .write msie meie en =>
    if s.foreignRuns then some ((s.setMie ⟨msie, s.csrs.mie.mtie, meie⟩).setMstatusMie en)
    else none

/-! ## How long a call waits -/

/-- The ticks of a duration: no narrowing as long as they fit into 32 bits. -/
theorem convert_ms_le (c : SleepConfig) (ms : Nat) :
    tlkApiConvertMsDelayToTicks c ms ≤ ms * c.cyclesPerSecond / 1000 := by
  unfold tlkApiConvertMsDelayToTicks u32 u64
  exact Nat.le_trans (Nat.mod_le _ _) (Nat.div_le_div_right (Nat.mod_le _ _))

theorem convert_ms_lt (c : SleepConfig) (ms : Nat) :
    tlkApiConvertMsDelayToTicks c ms < 2 ^ 32 := Nat.mod_lt _ (by decide)

theorem convert_ms_eq {c : SleepConfig} {ms : Nat}
    (h : ms * c.cyclesPerSecond / 1000 < 2 ^ 32) :
    tlkApiConvertMsDelayToTicks c ms = ms * c.cyclesPerSecond / 1000 := by
  have hproduct : ms * c.cyclesPerSecond < 2 ^ 64 := by omega
  rw [tlkApiConvertMsDelayToTicks, u64_of_lt hproduct, u32_of_lt h]

section Step

variable {c : SleepConfig} {s s' : SleepHart}

/-- A handler leaves the clock, the call that it interrupts and the history. -/
theorem isrStep_frame {f : IsrFrame} {rest : List IsrFrame} {loc : IsrLoc}
    (h : isrStep c s f rest loc = some s') :
    (s'.mtime = s.mtime ∧ s'.task = s.task ∧ s'.currentTime = s.currentTime) ∧
      s'.windows = s.windows ∧ s'.rearmed = s.rearmed := by
  cases loc with
  | restoreContext =>
    simp only [isrStep] at h
    split at h
    · cases h
    · cases h; exact ⟨⟨rfl, rfl, rfl⟩, rfl, rfl⟩
  | _ => cases h; exact ⟨⟨rfl, rfl, rfl⟩, rfl, rfl⟩

theorem noteInterrupt_task (source : Interrupt) (s : SleepHart) :
    (s.noteInterrupt source).mtime = s.mtime ∧ (s.noteInterrupt source).task = s.task ∧
      (s.noteInterrupt source).currentTime = s.currentTime := by
  cases source <;> exact ⟨rfl, rfl, rfl⟩

/-- What a step does to the clock and the call: time passes, a call is entered, the open call goes
on, or nothing. -/
theorem sleepStep_task {a : SleepAction} (h : sleepStep c s a = some s') :
    (∃ d, s'.mtime = s.mtime + d ∧ s'.task = s.task ∧ s'.currentTime = s.currentTime) ∨
    (s.task = none ∧ s'.mtime = s.mtime) ∨
    (∃ durationMs stmt, s.task = some (durationMs, stmt) ∧ s.frames = [] ∧
      s' = tlkApiSleepStep c s durationMs stmt) := by
  cases a with
  | tick d =>
    cases h
    exact .inl ⟨d, rfl, rfl, rfl⟩
  | interrupt source pc =>
    simp only [sleepStep] at h
    split at h
    · cases h
      exact .inl ⟨0, noteInterrupt_task source s⟩
    · cases h
  | sleep durationMs =>
    simp only [sleepStep] at h
    split at h
    · next hframes htask =>
      cases h
      exact .inr (.inl ⟨htask, rfl⟩)
    · cases h
  | exec =>
    simp only [sleepStep] at h
    split at h
    · exact .inl ⟨0, (isrStep_frame h).1⟩
    · next durationMs stmt hframes htask =>
      cases h
      exact .inr (.inr ⟨durationMs, stmt, htask, hframes, rfl⟩)
    · cases h
  | write msie meie en =>
    simp only [sleepStep] at h
    split at h
    · cases h; exact .inl ⟨0, rfl, rfl, rfl⟩
    · cases h

end Step

/-- The call that read the timer at `start` is still waiting, or the timer has advanced by `ticks`
since. -/
def WaitingOrDone (ms start ticks : Nat) (s : SleepHart) : Prop :=
  start ≤ s.mtime ∧
    (start + ticks ≤ s.mtime ∨
      (∃ stmt, s.task = some (ms, stmt) ∧ stmt ≠ .readTime) ∧ s.currentTime = u64 start)

/-- The loop ends no earlier than the timer has passed the deadline. -/
theorem deadline_passed {start ticks mtime : Nat} (hle : start ≤ mtime)
    (hfits : u64 start + ticks < 2 ^ 64) (hpast : ¬ u64 mtime < u64 (u64 start + ticks)) :
    start + ticks ≤ mtime := by
  rw [u64_of_lt hfits] at hpast
  unfold u64 at hpast hfits
  omega

theorem waiting_step {c : SleepConfig} {s s' : SleepHart} {a : SleepAction} {ms start : Nat}
    (hfits : u64 start + tlkApiConvertMsDelayToTicks c ms < 2 ^ 64)
    (h : sleepStep c s a = some s')
    (hi : WaitingOrDone ms start (tlkApiConvertMsDelayToTicks c ms) s) :
    WaitingOrDone ms start (tlkApiConvertMsDelayToTicks c ms) s' := by
  obtain ⟨hle, hstate⟩ := hi
  rcases sleepStep_task h with ⟨d, hmtime, htask, hcurrent⟩ | ⟨htask, hmtime⟩ |
    ⟨durationMs, stmt, htask, -, rfl⟩
  · refine ⟨by omega, hstate.imp (fun hdone => by omega) fun hwait => ?_⟩
    rw [htask, hcurrent]
    exact hwait
  · refine ⟨by omega, .inl ?_⟩
    rcases hstate with hdone | ⟨⟨stmt, hwait, -⟩, -⟩
    · omega
    · rw [htask] at hwait
      cases hwait
  · have hmtime : (tlkApiSleepStep c s durationMs stmt).mtime = s.mtime := by cases stmt <;> rfl
    refine ⟨by omega, ?_⟩
    rcases hstate with hdone | ⟨⟨stmt', hwait, hread⟩, hcurrent⟩
    · exact .inl (by omega)
    · rw [htask] at hwait
      cases hwait
      cases stmt with
      | readTime => exact absurd rfl hread
      | loopTest =>
        by_cases hpast : s.getMtime < s.deadline c ms
        · refine .inr ⟨⟨.wfi, ?_, nofun⟩, hcurrent⟩
          simp only [tlkApiSleepStep, if_pos hpast]
        · refine .inl (deadline_passed hle hfits ?_)
          rw [← hcurrent]
          exact hpast
      | setCompare loc =>
        refine .inr ⟨⟨_, rfl, ?_⟩, hcurrent⟩
        cases loc <;> exact nofun
      | _ =>
        refine .inr ⟨⟨_, rfl, ?_⟩, hcurrent⟩
        exact nofun

/-- The statements of a call up to its loop, without an interrupt. -/
theorem exec_to_loop (c : SleepConfig) {s : SleepHart} {ms : Nat}
    (htask : s.task = some (ms, .readTime)) (hframes : s.frames = []) :
    ∃ t, Run (sleepStep c) (fun _ _ _ => True) s (List.replicate 7 .exec) t ∧
      t.task = some (ms, .loopTest) ∧ t.frames = [] ∧ t.currentTime = u64 s.mtime ∧
      t.mtime = s.mtime := by
  obtain ⟨mtime, compare, csrs, currentTime, task, frames, windows, rearmed⟩ := s
  cases htask
  cases hframes
  refine ⟨_, .cons rfl trivial (.cons rfl trivial (.cons rfl trivial (.cons rfl trivial
    (.cons rfl trivial (.cons rfl trivial (.cons rfl trivial (.nil _))))))), rfl, rfl, rfl, rfl⟩

/-- The call returns once the timer has advanced by as much as the test can see. -/
theorem exec_to_return (c : SleepConfig) {s : SleepHart} {ms : Nat}
    (htask : s.task = some (ms, .readTime)) (hframes : s.frames = []) (d : Nat)
    (hpast : u64 (u64 s.mtime + tlkApiConvertMsDelayToTicks c ms) ≤ u64 (s.mtime + d)) :
    ∃ acts t, Run (sleepStep c) (fun _ _ _ => True) s (.exec :: acts) t ∧ t.task = none ∧
      t.mtime = s.mtime + d := by
  obtain ⟨t, hloop, ht, htframes, hcurrent, hmtime⟩ := exec_to_loop c htask hframes
  have hexit : sleepStep c { t with mtime := t.mtime + d } .exec =
      some { t with mtime := t.mtime + d, task := none } := by
    simp only [sleepStep, htframes, ht, tlkApiSleepStep, SleepHart.deadline, SleepHart.getMtime,
      hcurrent, hmtime]
    rw [if_neg (Nat.not_lt.mpr hpast)]
  have hwait := hloop.trans (.cons (a := .tick d) rfl trivial (.cons hexit trivial (.nil _)))
  exact ⟨_, _, hwait, rfl, congrArg (· + d) hmtime⟩

/-- **A call waits long enough exactly when its ticks fit into 32 bits and its end into the
counter.** -/
theorem sleep_waits_iff (c : SleepConfig) (ms : Nat) (s : SleepHart)
    (htask : s.task = some (ms, .readTime)) (hframes : s.frames = []) :
    (∀ acts t, Run (sleepStep c) (fun _ _ _ => True) s (.exec :: acts) t → t.task = none →
      s.mtime + ms * c.cyclesPerSecond / 1000 ≤ t.mtime) ↔
    ms * c.cyclesPerSecond / 1000 < 2 ^ 32 ∧
      u64 s.mtime + ms * c.cyclesPerSecond / 1000 < 2 ^ 64 := by
  constructor
  · intro h
    have hticks := convert_ms_lt c ms
    by_cases hfits : u64 s.mtime + tlkApiConvertMsDelayToTicks c ms < 2 ^ 64
    · -- The shortest wait: the timer is exactly at the deadline when the loop tests it.
      obtain ⟨acts, t, run, hreturn, hmtime⟩ := exec_to_return c htask hframes
        (tlkApiConvertMsDelayToTicks c ms) (by unfold u64 at hfits ⊢; omega)
      have hwait := h acts t run hreturn
      have hle := convert_ms_le c ms
      omega
    · -- The deadline has wrapped around and the loop ends at once.
      obtain ⟨acts, t, run, hreturn, hmtime⟩ := exec_to_return c htask hframes 0
        (by unfold u64 at hfits ⊢; omega)
      have hwait := h acts t run hreturn
      have hle := convert_ms_le c ms
      have hnow := u64_lt s.mtime
      omega
  · rintro ⟨hnarrow, hfits⟩ acts t run hreturn
    have hticks := convert_ms_eq hnarrow
    rw [← hticks] at hfits ⊢
    cases run with
    | @cons _ entered _ _ _ hstep _ rest =>
      have hentered : WaitingOrDone ms s.mtime (tlkApiConvertMsDelayToTicks c ms) entered := by
        simp only [sleepStep, hframes, htask] at hstep
        cases hstep
        refine ⟨Nat.le_refl _, .inr ⟨⟨_, rfl, ?_⟩, rfl⟩⟩
        exact nofun
      obtain ⟨-, hdone | ⟨⟨stmt, hwait, -⟩, -⟩⟩ := rest.invariant
        (P := WaitingOrDone ms s.mtime (tlkApiConvertMsDelayToTicks c ms)) hentered
        fun _ _ _ h _ hi => waiting_step hfits h hi
      · exact hdone
      · rw [hreturn] at hwait
        cases hwait

/-- A build whose nesting handlers are those of `useNest`, and they let every source in. -/
def sleepBuild (cyclesPerSecond : Nat) (useNest : Interrupt → Bool) : SleepConfig where
  cyclesPerSecond
  useNest
  nest := ⟨true, true, true, true, true, true, true, true⟩
  hw := ⟨id, id⟩

/-- The hart with all interrupts enabled, outside the call. -/
def SleepHart.idle (mtime : Nat) : SleepHart where
  mtime
  compare := .ofTime UINT64_MAX
  csrs := ⟨0, ⟨true, true, true⟩, ⟨true, true, .machine⟩, 0⟩
  currentTime := 0
  task := none
  frames := []
  windows := []
  rearmed := false

/-- The hart in a call that is about to read the timer. -/
def SleepHart.calling (mtime ms : Nat) : SleepHart :=
  { SleepHart.idle mtime with task := some (ms, .readTime) }

/-- One second at 24 MHz. -/
theorem sleep_waits_iff_second :
    (∀ acts t,
      Run (sleepStep (sleepBuild 24000000 fun _ => false)) (fun _ _ _ => True)
        (.calling 0 1000) (.exec :: acts) t →
      t.task = none → 24000000 ≤ t.mtime) ∧
    ∃ acts t,
      Run (sleepStep (sleepBuild 24000000 fun _ => false)) (fun _ _ _ => True)
        (.calling 0 1000) (.exec :: acts) t ∧ t.task = none := by
  constructor
  · intro acts t run hreturn
    have hwait := (sleep_waits_iff (sleepBuild 24000000 fun _ => false) 1000 (.calling 0 1000)
      rfl rfl).mpr ⟨by decide, by decide⟩ acts t run hreturn
    rwa [show (SleepHart.calling 0 1000).mtime = 0 from rfl, Nat.zero_add] at hwait
  · obtain ⟨acts, t, run, hreturn, -⟩ := exec_to_return (sleepBuild 24000000 fun _ => false)
      (s := .calling 0 1000) rfl rfl 24000000 (by decide)
    exact ⟨acts, t, run, hreturn⟩

/-- Three minutes at 24 MHz are `2^32 + 704` ticks, and the call may return after 704. -/
theorem sleep_returns_early :
    ¬ ∀ (c : SleepConfig) (ms : Nat) (s : SleepHart), 1 ≤ ms → ms < 2 ^ 32 →
      s.task = some (ms, .readTime) → s.frames = [] →
      ∀ acts t, Run (sleepStep c) (fun _ _ _ => True) s (.exec :: acts) t → t.task = none →
        s.mtime + ms * c.cyclesPerSecond / 1000 ≤ t.mtime := by
  intro h
  obtain ⟨acts, t, run, hreturn, hmtime⟩ := exec_to_return (sleepBuild 24000000 fun _ => false)
    (s := .calling 0 178957) rfl rfl 704 (by decide)
  have hwait := h _ _ _ (by decide) (by decide) rfl rfl acts t run hreturn
  rw [hmtime] at hwait
  exact absurd hwait (by decide)

end UniSdk.Core
