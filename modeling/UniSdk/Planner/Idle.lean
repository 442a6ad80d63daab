import UniSdk.Planner.Machine

/-!
# Blocking with work queued

`tlk_task_idle` tests that no work is pending and then, interrupts enabled, goes on to `wfi`
or `TLK_PM_SLEEP_MS`. A handler that submits work in between, and whose software interrupt
has been served by then, does not stop it. Apart from such a submit the planner blocks on an
empty queue only.
-/

namespace UniSdk.Planner

open Library.Words Library.Runs Machine

variable {n : Nat} {φ α : Type}

/-- The statements after the test for pending work, up to the blocking ones. -/
def Loc.committed : Loc φ α → Bool
  | .idle (.pmNow ..) | .idle (.pmTick ..) | .idle (.pmSleep ..) | .idle .wfi => true
  | _ => false

/-- `wfi` or the call of `TLK_PM_SLEEP_MS` runs next. -/
def Loc.blocking : Loc φ α → Bool
  | .idle (.pmSleep ..) | .idle .wfi => true
  | _ => false

/-- A submit is accepted between the test for pending work and the blocking statement. -/
def lostSubmit (s s' : Machine n φ α) : Bool :=
  s.loc.committed && s'.shared.accepted.length != s.shared.accepted.length

structure IdleInv (c : PlannerConfig) (s : Machine n φ α) : Prop where
  consistent : s.shared.work.sWorkQueue.Consistent c.queue
  empty : s.loc.committed = true → s.shared.work.sWorkQueue.workQCount = 0

theorem blocking_committed {loc : Loc φ α} (h : loc.blocking = true) : loc.committed = true := by
  unfold Loc.blocking at h
  split at h
  · rfl
  · rfl
  · cases h

theorem inPass_not_committed {loc : Loc φ α} (h : loc.inPass = true) : loc.committed = false := by
  cases loc with
  | idle pc => cases h
  | _ => rfl

/-- The idle function leaves the shared data alone, the clock apart, and is past its test for
work only when the queue was empty. -/
theorem idleStep_work {c : PlannerConfig} {s s' : Machine n φ α} {pc : IdleLoc}
    {a : Action n φ α} (h : idleStep c s pc a = some s') :
    s'.shared.work = s.shared.work ∧
      (s'.loc.committed = true → (Loc.idle pc : Loc φ α).committed = true ∨
        s.shared.work.sWorkQueue.workQCount = 0) := by
  unfold idleStep at h
  split at h
  · cases h; exact ⟨rfl, fun hm => by cases hm⟩
  · cases h; exact ⟨rfl, fun hm => by cases hm⟩
  · cases h
    refine ⟨rfl, fun hm => ?_⟩
    dsimp only [goto] at hm
    split at hm <;> cases hm
  · cases h
    refine ⟨rfl, fun hm => .inr ?_⟩
    dsimp only [goto] at hm
    split at hm
    · cases hm
    · next hp => simpa [tlkTaskWorkIsPending, tlkTaskWorkQueueIsEmpty] using hp
  · cases h; exact ⟨rfl, fun _ => .inl rfl⟩
  · cases h; exact ⟨rfl, fun _ => .inl rfl⟩
  · cases h; exact ⟨rfl, fun _ => .inl rfl⟩
  · cases h; exact ⟨rfl, fun hm => by cases hm⟩
  · cases h; exact ⟨rfl, fun hm => by cases hm⟩
  · cases h

theorem inBody_not_committed {loc : Loc φ α} (h : loc.inBody = true) : loc.committed = false := by
  unfold Loc.inBody at h
  split at h
  · rfl
  · rfl
  · rfl
  · cases h

theorem IdleInv.frame {c : PlannerConfig} {s s' : Machine n φ α} (hi : IdleInv c s)
    (hframe : PassFrame c s s') : IdleInv c s' :=
  ⟨hframe.consistent hi.consistent,
    fun hm => by rw [inPass_not_committed hframe.inPass] at hm; cases hm⟩

theorem machineStep_idleInv {c : PlannerConfig} {s s' : Machine n φ α} {a : Action n φ α}
    (h : machineStep c s a = some s') (hlost : lostSubmit s s' = false) (hi : IdleInv c s) :
    IdleInv c s' := by
  obtain ⟨shared, rfl, hext⟩ | ⟨hbody, wake, active, rfl, -⟩ | hret | ⟨pc, hloc, hidle⟩ |
    ⟨-, hpass⟩ := machineStep_cases h
  · obtain ⟨extra, hacc⟩ := hext.serves hi.consistent
    refine ⟨hacc.consistent, fun hm => ?_⟩
    -- without an accepted submit the queue still has the length it had
    have hlen : shared.accepted.length = s.shared.accepted.length := by
      unfold lostSubmit at hlost
      rw [hm, Bool.true_and, bne_eq_false_iff_eq] at hlost
      exact hlost
    have hextra : extra = [] := by
      rw [hacc.accepted, List.length_append] at hlen
      exact List.eq_nil_of_length_eq_zero (by omega)
    have hitems := congrArg List.length hacc.items
    rw [hextra, List.append_nil, WorkQueue.items_length, WorkQueue.items_length] at hitems
    rw [hitems]
    exact hi.empty hm
  · exact ⟨hi.consistent, fun hm => by rw [inBody_not_committed hbody] at hm; cases hm⟩
  · exact hi.frame (bodyReturn_frame hret)
  · obtain ⟨hwork, hm⟩ := idleStep_work hidle
    refine ⟨by rw [hwork]; exact hi.consistent, fun hm' => ?_⟩
    rw [hwork]
    rcases hm hm' with hpre | hzero
    · exact hi.empty (by rw [hloc]; exact hpre)
    · exact hzero
  · obtain ⟨pc, -, rfl⟩ | hframe := passStep_cases hpass
    · obtain ⟨shared, loc, hs, hqueue, -, -, -, hnext⟩ := planStep_cases s pc
      rw [hs]
      refine ⟨by rw [hqueue]; exact hi.consistent, fun hm => ?_⟩
      rcases hnext with ⟨pc', rfl⟩ | rfl
      · cases hm
      · cases hm
    · exact hi.frame hframe

/-- In every run in which no submit is accepted between the test for pending work and the
blocking statement, the queue is empty whenever the planner executes `wfi` or calls
`TLK_PM_SLEEP_MS`. -/
theorem blocks_on_empty_queue [Inhabited α] (c : PlannerConfig) (b : BootValues n)
    (active : Nat → Bool) (acts : List (Action n φ α)) (s : Machine n φ α)
    (run : Run (machineStep c) (fun s _ s' => lostSubmit s s' = false) (.load c b active) acts s)
    (hblock : s.loc.blocking = true) : s.shared.work.sWorkQueue.workQCount = 0 := by
  have hload : IdleInv c (.load c b active : Machine n φ α) :=
    ⟨WorkQueue.init_consistent c.queue, fun hm => by cases hm⟩
  have hinv := run.invariant (P := IdleInv c) hload
    fun _ _ _ hstep hlost hi => machineStep_idleInv hstep hlost hi
  exact hinv.empty (blocking_committed hblock)

/-- The first pass up to `wfi`, with one task. -/
def firstPassToWfi : List (Action 0 Unit Unit) := List.replicate 21 .step

theorem blocks_on_empty_queue_first_pass :
    ∃ s : Machine 0 Unit Unit,
      SmallRun 1 (by decide) (fun s _ s' => lostSubmit s s' = false) firstPassToWfi s ∧
      s.loc.blocking = true ∧ s.shared.work.sWorkQueue.workQCount = 0 := by
  have hrun : ∃ s : Machine 0 Unit Unit,
      SmallRun 1 (by decide) (fun s _ s' => lostSubmit s s' = false) firstPassToWfi s ∧
      s.loc.blocking = true := by
    apply exists_run_of_follow (fun s : Machine 0 Unit Unit => s.loc.blocking = true)
    decide +kernel
  obtain ⟨s, run, hblock⟩ := hrun
  exact ⟨s, run, hblock, blocks_on_empty_queue _ _ _ _ s run hblock⟩

/-- A handler submits work when the test has found none, and its software interrupt is served.
The planner then executes `wfi` with one item queued. -/
theorem blocks_on_queued_work :
    ∃ s : Machine 0 Unit Unit,
      SmallRun 1 (by decide) (fun _ _ _ => True)
        (firstPassToWfi ++ [.isr (.submit (some ()) ()), .msi]) s ∧
      s.loc.blocking = true ∧ s.shared.work.sWorkQueue.workQCount = 1 ∧
        s.shared.work.swPending = false :=
  exists_run_of_follow
    (fun s : Machine 0 Unit Unit => s.loc.blocking = true ∧
      s.shared.work.sWorkQueue.workQCount = 1 ∧ s.shared.work.swPending = false)
    (by decide +kernel)

end UniSdk.Planner
