import UniSdk.Library.Runs
import UniSdk.Library.Words

/-!
# Reading the timer compare register

`tlk_mtimer_get_mtime_compare` reads the high word and then the low word, and does not look at the
high word again. `tlk_mtimer_set_mtime_compare` writes the words one after the other. Both run with
interrupts enabled, and a handler may set the compare value between any two of their statements.
A reading is a value that was set as long as the high word stays between the two reads, and between
the last two writes of every setting.
-/

namespace UniSdk.Core

open Library.Words Library.Runs

/-- The statement of `tlk_mtimer_set_mtime_compare` that runs next. -/
inductive SetCompareLoc
  | max (time : Nat)
  | high (time : Nat)
  | low (time : Nat)
  deriving DecidableEq, Repr

/-- The statement of `tlk_mtimer_get_mtime_compare` that runs next. -/
inductive GetCompareLoc
  | readH
  | readL (mtimecmpH : Nat)
  deriving DecidableEq, Repr

/-- What the task context does: other code, or one of the two functions. -/
inductive CompareTask
  | idle
  | get (loc : GetCompareLoc)
  | set (loc : SetCompareLoc)
  deriving DecidableEq, Repr

/-- A call of `tlk_mtimer_get_mtime_compare` that has returned: the values that had been set by the
return, and the value returned. -/
structure GetCompareCall where
  settings : List Nat
  value : Nat
  deriving DecidableEq, Repr

/-- The two words of the compare register. -/
structure CompareReg where
  high : Nat
  low : Nat
  deriving DecidableEq, Repr

namespace CompareReg

/-- The words of a value. -/
def ofTime (time : Nat) : CompareReg := ⟨u32 (time / 2 ^ 32), u32 time⟩

def value (r : CompareReg) : Nat := r.high * 2 ^ 32 + r.low

end CompareReg

/-- The compare register and those who use it. The handler first in `handlers` runs, or the task
context when there is none. The last two fields are history: the values of the settings that have
begun, and the calls of the task context that have returned. -/
structure CompareHart where
  reg : CompareReg
  task : CompareTask
  handlers : List (Option SetCompareLoc)
  settings : List Nat
  calls : List GetCompareCall
  deriving DecidableEq, Repr

inductive CompareAction
  | interrupt
  | ret
  | get
  | set (time : Nat)
  | step
  deriving DecidableEq, Repr

/-- The register holds `time`, as it was set before. -/
def CompareHart.start (time : Nat) : CompareHart where
  reg := .ofTime time
  task := .idle
  handlers := []
  settings := [u64 time]
  calls := []

/-- One statement of `tlk_mtimer_set_mtime_compare`, and the one that follows. -/
def tlkMtimerSetMtimeCompareStep (r : CompareReg) :
    SetCompareLoc → CompareReg × Option SetCompareLoc
  | .max time => ({ r with low := 0xffffffff }, some (.high time))
  | .high time => ({ r with high := u32 (time / 2 ^ 32) }, some (.low time))
  | .low time => ({ r with low := u32 time }, none)

/-- One statement of `tlk_mtimer_get_mtime_compare`. -/
def tlkMtimerGetMtimeCompareStep (s : CompareHart) : GetCompareLoc → CompareHart
  | .readH => { s with task := .get (.readL s.reg.high) }
  | .readL mtimecmpH =>
    { s with
      task := .idle
      calls := s.calls ++ [⟨s.settings, mtimecmpH * 2 ^ 32 + s.reg.low⟩] }

/-- The task context goes on with a setting, or is done with it. -/
def CompareTask.afterSet : Option SetCompareLoc → CompareTask
  | some loc => .set loc
  | none => .idle

def compareTaskStep (s : CompareHart) : CompareTask → Option CompareHart
  | .idle => none
  | .get loc => some (tlkMtimerGetMtimeCompareStep s loc)
  | .set loc =>
    some { s with
      reg := (tlkMtimerSetMtimeCompareStep s.reg loc).1
      task := .afterSet (tlkMtimerSetMtimeCompareStep s.reg loc).2 }

def compareStep (s : CompareHart) : CompareAction → Option CompareHart
  | .interrupt => some { s with handlers := none :: s.handlers }
  | .ret =>
    match s.handlers with
    | none :: rest => some { s with handlers := rest }
    | _ => none
  | .get =>
    match s.handlers, s.task with
    | [], .idle => some { s with task := .get .readH }
    | _, _ => none
  | .set time =>
    match s.handlers, s.task with
    | none :: rest, _ =>
      some { s with
        handlers := some (.max time) :: rest
        settings := s.settings ++ [u64 time] }
    | [], .idle =>
      some { s with
        task := .set (.max time)
        settings := s.settings ++ [u64 time] }
    | _, _ => none
  | .step =>
    match s.handlers with
    | some loc :: rest =>
      some { s with
        reg := (tlkMtimerSetMtimeCompareStep s.reg loc).1
        handlers := (tlkMtimerSetMtimeCompareStep s.reg loc).2 :: rest }
    | none :: _ => none
    | [] => compareTaskStep s s.task

/-- The statement that runs next finds the high word that its call wrote or read before. -/
def CompareHart.highKept (s : CompareHart) : Bool :=
  match s.handlers, s.task with
  | some (.low time) :: _, _ => s.reg.high == u32 (time / 2 ^ 32)
  | [], .set (.low time) => s.reg.high == u32 (time / 2 ^ 32)
  | [], .get (.readL mtimecmpH) => s.reg.high == mtimecmpH
  | _, _ => true

/-! ## The open settings -/

def SetCompareLoc.time : SetCompareLoc → Nat
  | .max time | .high time | .low time => time

/-- The setting has written to the register. -/
def SetCompareLoc.begun : SetCompareLoc → Bool
  | .max _ => false
  | .high _ | .low _ => true

/-- While none of the open settings is half done the register holds a value that was set. -/
structure Settled (r : CompareReg) (settings : List Nat) (sets : List SetCompareLoc) : Prop where
  whole : (∀ loc ∈ sets, loc.begun = false) → r.value ∈ settings
  called : ∀ loc ∈ sets, u64 loc.time ∈ settings

theorem value_ofTime (time : Nat) : (CompareReg.ofTime time).value = u64 time := by
  show u32 (time / 2 ^ 32) * 2 ^ 32 + u32 time = u64 time
  unfold u32 u64
  omega

namespace Settled

variable {r : CompareReg} {settings : List Nat} {sets : List SetCompareLoc}

theorem begin (hi : Settled r settings sets) (time : Nat) :
    Settled r (settings ++ [u64 time]) (.max time :: sets) where
  whole h := List.mem_append_left _ (hi.whole (List.forall_mem_cons.mp h).2)
  called loc hloc := by
    rcases List.mem_cons.mp hloc with rfl | hrest
    · exact List.mem_append_right _ List.mem_cons_self
    · exact List.mem_append_left _ (hi.called loc hrest)

/-- A statement of the innermost setting. Its last one completes the value, as its own high word is
still there. -/
theorem step {loc : SetCompareLoc} (hi : Settled r settings (loc :: sets))
    (hkept : ∀ time, loc = .low time → r.high = u32 (time / 2 ^ 32)) :
    Settled (tlkMtimerSetMtimeCompareStep r loc).1 settings
      ((tlkMtimerSetMtimeCompareStep r loc).2.toList ++ sets) := by
  have hcalled := List.forall_mem_cons.mp hi.called
  cases loc with
  | max time =>
    refine ⟨fun h => ?_, List.forall_mem_cons.mpr hcalled⟩
    cases (List.forall_mem_cons.mp h).1
  | high time =>
    refine ⟨fun h => ?_, List.forall_mem_cons.mpr hcalled⟩
    cases (List.forall_mem_cons.mp h).1
  | low time =>
    refine ⟨fun _ => ?_, hcalled.2⟩
    have hvalue : (tlkMtimerSetMtimeCompareStep r (.low time)).1 = .ofTime time := by
      show CompareReg.mk r.high (u32 time) = _
      rw [hkept time rfl]
      rfl
    rw [hvalue, value_ofTime]
    exact hcalled.1

end Settled

def CompareTask.setting : CompareTask → List SetCompareLoc
  | .set loc => [loc]
  | _ => []

/-- The register is settled up to the settings that have not returned, the innermost first, and what
the calls have returned was set. -/
structure CompareInv (s : CompareHart) : Prop where
  settled : Settled s.reg s.settings (s.handlers.reduceOption ++ s.task.setting)
  returned : ∀ r ∈ s.calls, r.value ∈ r.settings

variable {s s' : CompareHart}

theorem compareTaskStep_inv (hi : CompareInv s) (hnone : s.handlers = [])
    (hkept : s.highKept = true) (h : compareTaskStep s s.task = some s') : CompareInv s' := by
  have hsettled := hi.settled
  rw [hnone] at hsettled
  rw [CompareHart.highKept, hnone] at hkept
  cases htask : s.task with
  | idle => rw [htask] at h; cases h
  | get loc =>
    rw [htask] at h hsettled hkept
    cases h
    cases loc with
    | readH =>
      refine ⟨?_, hi.returned⟩
      dsimp only [tlkMtimerGetMtimeCompareStep]
      rw [hnone]
      exact hsettled
    | readL mtimecmpH =>
      refine ⟨?_, List.forall_mem_append.mpr ⟨hi.returned, fun r hr => ?_⟩⟩
      · dsimp only [tlkMtimerGetMtimeCompareStep]
        rw [hnone]
        exact hsettled
      · rw [List.mem_singleton.mp hr]
        -- The word that was read before is still the high word of the register.
        have hhigh : s.reg.high = mtimecmpH := of_decide_eq_true hkept
        dsimp only
        rw [← hhigh]
        exact hsettled.whole nofun
  | set loc =>
    rw [htask] at h hsettled hkept
    cases h
    have hstep := hsettled.step fun time hlow => by
      rw [hlow] at hkept
      exact of_decide_eq_true hkept
    refine ⟨?_, hi.returned⟩
    dsimp only
    rw [hnone]
    cases loc <;> exact hstep

theorem compareStep_inv {a : CompareAction} (h : compareStep s a = some s')
    (hkept : a = .step → s.highKept = true) (hi : CompareInv s) : CompareInv s' := by
  have hsettled := hi.settled
  cases a with
  | interrupt =>
    cases h
    exact ⟨hsettled, hi.returned⟩
  | ret =>
    simp only [compareStep] at h
    split at h
    · next rest htop =>
      cases h
      rw [htop] at hsettled
      exact ⟨hsettled, hi.returned⟩
    · cases h
  | get =>
    simp only [compareStep] at h
    split at h
    · next hnone hidle =>
      cases h
      rw [hidle] at hsettled
      exact ⟨hsettled, hi.returned⟩
    · cases h
  | set time =>
    have hbegin := hsettled.begin time
    simp only [compareStep] at h
    split at h
    · next rest htop =>
      cases h
      rw [htop] at hbegin
      exact ⟨hbegin, hi.returned⟩
    · next hnone hidle =>
      cases h
      rw [hnone, hidle] at hbegin
      refine ⟨?_, hi.returned⟩
      dsimp only
      rw [hnone]
      exact hbegin
    · cases h
  | step =>
    have hhigh := hkept rfl
    simp only [compareStep] at h
    split at h
    · next loc rest htop =>
      cases h
      rw [htop] at hsettled
      rw [CompareHart.highKept, htop] at hhigh
      have hstep := @Settled.step _ _ (rest.reduceOption ++ s.task.setting) _ hsettled
        fun time hlow => by
          rw [hlow] at hhigh
          exact of_decide_eq_true hhigh
      refine ⟨?_, hi.returned⟩
      cases loc <;> exact hstep
    · cases h
    · next hnone => exact compareTaskStep_inv hi hnone hhigh h

/-- **A reading of the compare register is a value that was set**, in every run in which no handler
leaves another high word between the two reads of a call or between the last two writes of a
setting. -/
theorem get_mtime_compare_was_set (time : Nat) (acts : List CompareAction) (s : CompareHart)
    (run : Run compareStep (fun s a _ => a = .step → s.highKept = true) (.start time) acts s) :
    ∀ r ∈ s.calls, r.value ∈ r.settings := by
  have hload : CompareInv (.start time) := by
    refine ⟨⟨fun _ => ?_, nofun⟩, nofun⟩
    show (CompareReg.ofTime time).value ∈ [u64 time]
    rw [value_ofTime]
    exact List.mem_cons_self
  have hinv := run.invariant (P := CompareInv) hload
    fun _ _ _ hstep hkept hi => compareStep_inv hstep hkept hi
  exact hinv.returned

/-- A handler sets `time` between the two reads of a call. -/
def setBetweenReads (time : Nat) : List CompareAction :=
  [.get, .step, .interrupt, .set time, .step, .step, .step, .ret, .step]

theorem get_mtime_compare_was_set_once :
    ∃ s : CompareHart,
      Run compareStep (fun s a _ => a = .step → s.highKept = true) (.start (2 ^ 32 + 5))
        (setBetweenReads (2 ^ 32 + 3)) s ∧
      s.calls.map GetCompareCall.value = [2 ^ 32 + 3] ∧ ∀ r ∈ s.calls, r.value ∈ r.settings := by
  have hrun : ∃ s : CompareHart,
      Run compareStep (fun s a _ => a = .step → s.highKept = true) (.start (2 ^ 32 + 5))
        (setBetweenReads (2 ^ 32 + 3)) s ∧ s.calls.map GetCompareCall.value = [2 ^ 32 + 3] := by
    apply exists_run_of_follow (fun s : CompareHart =>
      s.calls.map GetCompareCall.value = [2 ^ 32 + 3])
    decide +kernel
  obtain ⟨s, run, hvalues⟩ := hrun
  exact ⟨s, run, hvalues, get_mtime_compare_was_set _ _ s run⟩

/-- The register is set to `2^32 + 5`, and a handler that starts a timer with an earlier deadline,
below `2^32`, sets it between the two reads: the value returned is later than both. -/
theorem get_mtime_compare_torn :
    ¬ ∀ (time : Nat) (acts : List CompareAction) (s : CompareHart),
      Run compareStep (fun _ _ _ => True) (.start time) acts s →
        ∀ r ∈ s.calls, r.value ∈ r.settings := by
  intro h
  have hrun : ∃ s : CompareHart,
      Run compareStep (fun _ _ _ => True) (.start (2 ^ 32 + 5)) (setBetweenReads (2 ^ 32 - 1)) s ∧
        s.calls = [⟨[2 ^ 32 + 5, 2 ^ 32 - 1], 2 ^ 33 - 1⟩] := by
    apply exists_run_of_follow (fun s : CompareHart =>
      s.calls = [⟨[2 ^ 32 + 5, 2 ^ 32 - 1], 2 ^ 33 - 1⟩])
    decide +kernel
  obtain ⟨s, run, hcalls⟩ := hrun
  have hmem := h _ _ s run
  rw [hcalls] at hmem
  exact absurd (hmem _ List.mem_cons_self) (by decide)

end UniSdk.Core
