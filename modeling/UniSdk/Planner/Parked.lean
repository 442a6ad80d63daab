import UniSdk.Planner.Machine

/-!
# Is a task started before its wake time?

The pass starts a task when `(int64_t)(now - t->wake) >= 0`. Over unsigned times that is the order
only as long as the wake time lies less than a half turn ahead: a later one, with the value that
parks the work queue task at the far end, looks as if it had gone by.
-/

namespace UniSdk.Planner

open Library.Words Library.Runs Machine

variable {n : Nat} {φ α : Type}

/-- The step from `s` to `s'` starts task `k`, in a pass that has read the clock value `now`. -/
def Starts (s s' : Machine n φ α) (now k : Nat) : Prop :=
  s.loc = .wakeTest now k ∧ (s'.loc = .body now k ∨ s'.loc = .wqPop now)

/-- A task is started only at its wake time or later, and not at all while it is parked. -/
structure StartsDue (c : PlannerConfig) (s s' : Machine n φ α) : Prop where
  due : ∀ now k, Starts s s' now k → s.taskWake c k ≤ now
  parked : ∀ now k, s.loc = .wakeTest now k → s.taskWake c k = UINT64_MAX → ¬ Starts s s' now k

/-- If the step tests a wake time, that time is at most a half turn ahead of the clock value of
the pass. -/
def WakeNear (c : PlannerConfig) (s : Machine n φ α) (a : Action n φ α) : Prop :=
  ∀ now k, s.loc = .wakeTest now k → a = .step → s.taskWake c k ≤ now + 2 ^ 63

/-- The clock value that the pass in progress has read. -/
def Loc.passNow : Loc φ α → Option Nat
  | .resetDeadline now | .loop now _ | .wakeTest now _ | .body now _ | .wqPop now | .wqBody now _
  | .wqPark now | .deadlineTest now _ | .deadlineSet now _ => some now
  | .boot | .readNow | .plan _ | .idle _ => none

/-- The pass in progress has read a clock value below the sign bit. -/
def PassNowLt (s : Machine n φ α) : Prop := ∀ now, s.loc.passNow = some now → now < 2 ^ 63

variable {c : PlannerConfig} {s s' : Machine n φ α}

/-- A parked task is due at every clock value below the sign bit but the last. -/
theorem notBefore_parked_iff {now : Nat} (hnow : now < 2 ^ 63) :
    notBefore now UINT64_MAX = true ↔ now ≠ 2 ^ 63 - 1 := by
  unfold notBefore u64 UINT64_MAX
  rw [decide_eq_true_eq]
  omega

/-- At the test of a wake time, the task's own step starts the task if the test says so, and all
other steps stay there. -/
theorem starts_iff {a : Action n φ α} {now k : Nat} (h : machineStep c s a = some s')
    (hloc : s.loc = .wakeTest now k) :
    Starts s s' now k ↔ a = .step ∧ notBefore now (s.taskWake c k) = true := by
  have hstay : a ≠ .step → s'.loc = s.loc →
      (Starts s s' now k ↔ a = .step ∧ notBefore now (s.taskWake c k) = true) := by
    intro ha hsame
    refine ⟨?_, fun hs => absurd hs.1 ha⟩
    rintro ⟨-, hbody | hpop⟩
    · rw [hsame, hloc] at hbody; cases hbody
    · rw [hsame, hloc] at hpop; cases hpop
  cases a with
  | tick d => cases h; exact hstay nofun rfl
  | isr call => cases h; exact hstay nofun rfl
  | msi => cases h; exact hstay nofun rfl
  | call call => simp [machineStep, hloc, Loc.inBody] at h
  | setWake j wake => simp [machineStep, hloc, Loc.inBody] at h
  | setActive j active => simp [machineStep, hloc, Loc.inBody] at h
  | ret => simp [machineStep, bodyReturn, hloc] at h
  | sleep ok => simp [machineStep, hloc] at h
  | stimer tick => simp [machineStep, hloc] at h
  | step =>
    simp only [machineStep, hloc, passStep, Option.some.injEq] at h
    subst h
    by_cases hdue : notBefore now (s.taskWake c k) = true
    · rw [if_pos hdue]
      refine ⟨fun _ => ⟨rfl, hdue⟩, fun _ => ⟨hloc, ?_⟩⟩
      split
      · exact .inr rfl
      · exact .inl rfl
    · rw [if_neg hdue]
      refine ⟨fun hs => ?_, fun hs => absurd hs.2 hdue⟩
      obtain ⟨-, hbody | hpop⟩ := hs
      · cases hbody
      · cases hpop

/-- What one step has to meet. -/
theorem startsDue_iff {a : Action n φ α} (h : machineStep c s a = some s') (hnow : PassNowLt s) :
    StartsDue c s s' ↔ WakeNear c s a := by
  constructor
  · rintro hdue now k hloc rfl
    have hlt := hnow now (by rw [hloc]; rfl)
    exact (notBefore_le_iff hlt).mp fun hnb =>
      hdue.due now k ((starts_iff h hloc).mpr ⟨rfl, hnb⟩)
  · intro hnear
    have hdue : ∀ now k, Starts s s' now k → s.taskWake c k ≤ now := by
      intro now k hs
      obtain ⟨rfl, hnb⟩ := (starts_iff h hs.1).mp hs
      have hlt := hnow now (by rw [hs.1]; rfl)
      exact (notBefore_le_iff hlt).mpr (hnear now k hs.1 rfl) hnb
    refine ⟨hdue, fun now k hloc hmax hs => ?_⟩
    have hlt := hnow now (by rw [hloc]; rfl)
    have hle := hdue now k hs
    rw [hmax] at hle
    unfold UINT64_MAX at hle
    omega

/-- A statement of the pass keeps the clock value or reads it anew. -/
theorem passStep_passNow (h : passStep c s s.loc = some s') (now : Nat)
    (hnow : s'.loc.passNow = some now) :
    s.loc.passNow = some now ∨ now = tlkMtimerGetMtime s.shared := by
  cases hloc : s.loc with
  | boot => rw [hloc] at h; cases h; cases hnow
  | readNow => rw [hloc] at h; cases h; cases hnow; exact .inr rfl
  | resetDeadline now' => rw [hloc] at h; cases h; exact .inl hnow
  | loop now' k =>
    rw [hloc] at h
    cases h
    left
    dsimp only [goto] at hnow
    split at hnow
    · split at hnow <;> exact hnow
    · cases hnow
  | wakeTest now' k =>
    rw [hloc] at h
    cases h
    left
    split at hnow
    · split at hnow <;> exact hnow
    · exact hnow
  | wqPop now' =>
    rw [hloc] at h
    simp only [passStep] at h
    left
    split at h
    · cases h; exact hnow
    · split at h
      · cases h; exact hnow
      · cases h; exact hnow
  | wqPark now' => rw [hloc] at h; cases h; exact .inl hnow
  | deadlineTest now' k =>
    rw [hloc] at h
    cases h
    left
    dsimp only [goto] at hnow
    split at hnow <;> exact hnow
  | deadlineSet now' k => rw [hloc] at h; cases h; exact .inl hnow
  | plan pc =>
    rw [hloc] at h
    cases h
    obtain ⟨shared, loc, hs, -, -, -, -, hnext⟩ := planStep_cases s pc
    rw [hs] at hnow
    obtain ⟨pc', rfl⟩ | rfl := hnext
    · cases hnow
    · cases hnow
  | body now' k => rw [hloc] at h; cases h
  | wqBody now' item => rw [hloc] at h; cases h
  | idle pc => rw [hloc] at h; cases h

theorem machineStep_passNow {a : Action n φ α} (h : machineStep c s a = some s')
    (hclock : tlkMtimerGetMtime s.shared < 2 ^ 63) (hi : PassNowLt s) : PassNowLt s' := by
  obtain ⟨shared, rfl, -⟩ | ⟨-, wake, active, rfl, -⟩ | hret | ⟨pc, hloc, hidle⟩ |
    ⟨-, hpass⟩ := machineStep_cases h
  · exact hi
  · exact hi
  · intro now hnow
    unfold bodyReturn at hret
    split at hret
    · next hloc => cases hret; exact hi now (by rw [hloc]; exact hnow)
    · next hloc => cases hret; exact hi now (by rw [hloc]; exact hnow)
    · cases hret
  · intro now hnow
    obtain ⟨loc, mtime, rfl, rfl | ⟨pc', rfl⟩⟩ := idleStep_cases hidle
    · cases hnow
    · cases hnow
  · intro now hnow
    rcases passStep_passNow hpass now hnow with hsame | rfl
    · exact hi now hsame
    · exact hclock

/-- In every run with clock values below `2^63`: tasks are started at their wake times or later,
and parked tasks not at all, exactly when every wake time that a pass tests is at most `2^63`
ticks ahead of the clock value of the pass. -/
theorem starts_due_iff_wakes_near [Inhabited α] (c : PlannerConfig) (b : BootValues n)
    (active : Nat → Bool) (acts : List (Action n φ α)) (s : Machine n φ α) :
    Run (machineStep c)
        (fun s _ s' => tlkMtimerGetMtime s.shared < 2 ^ 63 ∧ StartsDue c s s')
        (.load c b active) acts s ↔
      Run (machineStep c)
        (fun s a _ => tlkMtimerGetMtime s.shared < 2 ^ 63 ∧ WakeNear c s a)
        (.load c b active) acts s := by
  have hload : PassNowLt (.load c b active : Machine n φ α) := fun _ h => nomatch h
  constructor
  · intro run
    exact run.imp (P := PassNowLt) hload fun _ _ _ hstep hok hi =>
      ⟨⟨hok.1, (startsDue_iff hstep hi).mp hok.2⟩, machineStep_passNow hstep hok.1 hi⟩
  · intro run
    exact run.imp (P := PassNowLt) hload fun _ _ _ hstep hok hi =>
      ⟨⟨hok.1, (startsDue_iff hstep hi).mpr hok.2⟩, machineStep_passNow hstep hok.1 hi⟩

/-- The first pass parks the work queue task, and the second pass goes on to its wake test. -/
def secondPassToWakeTest : List (Action 0 Unit Unit) := List.replicate 25 .step

/-- The second pass starts the work queue task although it is parked and the clock is at zero. -/
theorem parked_task_started :
    ∃ s : Machine 0 Unit Unit,
      SmallRun 1 (by decide) (fun s _ _ => tlkMtimerGetMtime s.shared < 2 ^ 63)
        secondPassToWakeTest s ∧
      (s.loc = .wakeTest 0 0 ∧ s.taskWake (smallConfig 1 (by decide)) 0 = UINT64_MAX) ∧
      ∃ s', machineStep (smallConfig 1 (by decide)) s .step = some s' ∧ Starts s s' 0 0 ∧
        ¬ StartsDue (smallConfig 1 (by decide)) s s' := by
  have hrun : ∃ s : Machine 0 Unit Unit,
      SmallRun 1 (by decide) (fun s _ _ => tlkMtimerGetMtime s.shared < 2 ^ 63)
        secondPassToWakeTest s ∧
      (s.loc = .wakeTest 0 0 ∧ s.taskWake (smallConfig 1 (by decide)) 0 = UINT64_MAX) := by
    apply exists_run_of_follow (fun s : Machine 0 Unit Unit =>
      s.loc = .wakeTest 0 0 ∧ s.taskWake (smallConfig 1 (by decide)) 0 = UINT64_MAX)
    decide +kernel
  obtain ⟨s, run, hloc, hmax⟩ := hrun
  have hstep : ∃ s', machineStep (smallConfig 1 (by decide)) s .step = some s' := by
    simp only [machineStep, hloc, passStep]
    exact ⟨_, rfl⟩
  obtain ⟨s', hstep⟩ := hstep
  have hstarts : Starts s s' 0 0 :=
    (starts_iff hstep hloc).mpr
      ⟨rfl, by rw [hmax]; exact (notBefore_parked_iff (by decide)).mpr (by decide)⟩
  exact ⟨s, run, ⟨hloc, hmax⟩, s', hstep, hstarts, fun h => h.parked 0 0 hloc hmax hstarts⟩

end UniSdk.Planner
