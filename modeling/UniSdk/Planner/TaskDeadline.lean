import UniSdk.Planner.Machine

/-!
# Does the pass plan for every active task?

`task_next_deadline` is lowered to a task's wake time when the loop has passed the task. A task
that runs later in the pass may bring forward or resume one that the loop is past, and a handler's
submit does so with the work queue task; the deadline then misses it. Apart from that, and from a
wake time that changes between its comparison and its assignment, the deadline is at or below the
wake time of every active task when the plan begins.
-/

namespace UniSdk.Planner

open Library.Words Library.Runs Machine

variable {n : Nat} {φ α : Type}

/-! ## No call changes `task_next_deadline` -/

theorem swTimerStart_taskNextDeadline (i : Fin n) (d : Nat) (p : PlannerState n φ α) :
    (tlkTaskSwTimerStart i d p).taskNextDeadline = p.taskNextDeadline := by
  unfold tlkTaskSwTimerStart
  dsimp only
  split <;> rfl

theorem irqVisit_taskNextDeadline (now : Nat) {cb : Fin n → PlannerState n φ α → PlannerState n φ α}
    (hcb : ∀ i p, (cb i p).taskNextDeadline = p.taskNextDeadline) (p : PlannerState n φ α)
    (i : Fin n) : (irqVisit now cb p i).taskNextDeadline = p.taskNextDeadline := by
  unfold irqVisit
  split
  · rw [irqLower_taskNextDeadline]
    split
    · rw [irqAdvance_eq]
      exact hcb i p
    · rfl
  · rfl

theorem irqVisits_taskNextDeadline (now : Nat)
    {cb : Fin n → PlannerState n φ α → PlannerState n φ α}
    (hcb : ∀ i p, (cb i p).taskNextDeadline = p.taskNextDeadline) (l : List (Fin n))
    (p : PlannerState n φ α) :
    (l.foldl (irqVisit now cb) p).taskNextDeadline = p.taskNextDeadline := by
  induction l generalizing p with
  | nil => rfl
  | cons i l ih => rw [List.foldl_cons, ih, irqVisit_taskNextDeadline now hcb]

mutual

theorem Call.run_taskNextDeadline (c : QueueSize) (call : Call n φ α) (p : PlannerState n φ α) :
    (call.run c p).taskNextDeadline = p.taskNextDeadline := by
  cases call with
  | tick d => rfl
  | submit fn arg => rfl
  | swTimerStart i d => exact swTimerStart_taskNextDeadline i d p
  | swTimerStop i => rfl
  | swTimerSetPeriod i period => rfl
  | swTimerSetMode i mode => rfl
  | mtimerIrq cb d =>
    exact irqVisits_taskNextDeadline _ (fun i p => runCalls_taskNextDeadline c (cb i) p) _ _

theorem runCalls_taskNextDeadline (c : QueueSize) (calls : List (Call n φ α))
    (p : PlannerState n φ α) : (runCalls c calls p).taskNextDeadline = p.taskNextDeadline := by
  cases calls with
  | nil => rfl
  | cons call calls =>
    exact (runCalls_taskNextDeadline c calls _).trans (call.run_taskNextDeadline c p)

end

theorem External.taskNextDeadline {c : QueueSize} {p p' : PlannerState n φ α}
    (h : External c p p') : p'.taskNextDeadline = p.taskNextDeadline := by
  cases h with
  | call call => exact call.run_taskNextDeadline c p
  | msi => rfl

/-! ## The tasks that the loop is past -/

/-- How many tasks the loop is past. -/
def Loc.visited (c : PlannerConfig) : Loc φ α → Nat
  | .loop _ k | .wakeTest _ k | .body _ k | .deadlineTest _ k | .deadlineSet _ k => k
  | .wqPop _ | .wqBody _ _ | .wqPark _ => c.workQueueTask
  | .plan .readNow => c.tasks
  | .boot | .readNow | .resetDeadline _ | .plan _ | .idle _ => 0

/-- The deadline is at or below the wake time of every active task that the loop is past. -/
def TasksCovered (c : PlannerConfig) (s : Machine n φ α) : Prop :=
  ∀ k < s.loc.visited c, s.active k = true → s.shared.taskNextDeadline ≤ s.taskWake c k

/-- The step resumes a task that the loop is past, or lowers its wake time, and the task is then to
wake before `task_next_deadline`. -/
def wakesVisited (c : PlannerConfig) (s s' : Machine n φ α) : Bool :=
  (List.range (s.loc.visited c)).any fun k =>
    s'.active k && decide (s'.taskWake c k < s.shared.taskNextDeadline) &&
      (!s.active k || decide (s'.taskWake c k < s.taskWake c k))

/-- The step assigns a wake time that has grown past `task_next_deadline` since it was compared. -/
def raisesDeadline (c : PlannerConfig) (s : Machine n φ α) (a : Action n φ α) : Bool :=
  match s.loc, a with
  | .deadlineSet _ k, .step => decide (s.shared.taskNextDeadline < s.taskWake c k)
  | _, _ => false

variable {c : PlannerConfig} {s s' : Machine n φ α}

/-- A step that goes past no task and leaves the deadline alone. -/
theorem TasksCovered.frame (hi : TasksCovered c s) (hvisited : s'.loc.visited c ≤ s.loc.visited c)
    (hdeadline : s'.shared.taskNextDeadline = s.shared.taskNextDeadline)
    (hwakes : wakesVisited c s s' = false) : TasksCovered c s' := by
  intro k hk hactive
  have hk' : k < s.loc.visited c := Nat.lt_of_lt_of_le hk hvisited
  have hnone := List.any_eq_false.mp hwakes k (List.mem_range.mpr hk')
  simp only [hactive, Bool.true_and, Bool.and_eq_true, decide_eq_true_eq, Bool.or_eq_true,
    Bool.not_eq_true', not_and, not_or] at hnone
  rw [hdeadline]
  by_contra hlt
  obtain ⟨hwas, hlower⟩ := hnone (Nat.lt_of_not_le hlt)
  have hold := hi k hk' (by simpa using hwas)
  omega

/-- Past its comparison a task is covered. -/
theorem TasksCovered.loop (hi : TasksCovered c s) {now k : Nat} (hk : s.loc.visited c = k)
    (hcover : s.active k = true → s.shared.taskNextDeadline ≤ s.taskWake c k) :
    TasksCovered c (s.goto (.loop now (k + 1))) := by
  intro j hj hactive
  rcases Nat.lt_succ_iff_lt_or_eq.mp hj with hlt | rfl
  · exact hi j (hk ▸ hlt) hactive
  · exact hcover hactive

theorem TasksCovered.deadlineSet (hi : TasksCovered c s) {now k : Nat}
    (hloc : s.loc = .deadlineSet now k) (hraise : raisesDeadline c s .step = false) :
    TasksCovered c ((s.onShared fun p => { p with taskNextDeadline := s.taskWake c k }).goto
      (.loop now (k + 1))) := by
  have hle : s.taskWake c k ≤ s.shared.taskNextDeadline := by
    simpa [raisesDeadline, hloc] using hraise
  intro j hj hactive
  show s.taskWake c k ≤ s.taskWake c j
  rcases Nat.lt_succ_iff_lt_or_eq.mp hj with hlt | rfl
  · exact Nat.le_trans hle (hi j (by rw [hloc]; exact hlt) hactive)
  · exact Nat.le_refl _

/-- What a statement of the pass does to the tasks that the loop is past and to the deadline. -/
inductive PassVisit (c : PlannerConfig) (s s' : Machine n φ α) : Prop
  | restart : s'.loc.visited c = 0 → PassVisit c s s'
  | stay : s'.loc.visited c ≤ s.loc.visited c →
      s'.shared.taskNextDeadline = s.shared.taskNextDeadline → PassVisit c s s'
  | next (now k : Nat) : s.loc.visited c = k → s' = s.goto (.loop now (k + 1)) →
      (s.active k = true → s.shared.taskNextDeadline ≤ s.taskWake c k) → PassVisit c s s'
  | lower (now k : Nat) : s.loc = .deadlineSet now k →
      s' = (s.onShared fun p => { p with taskNextDeadline := s.taskWake c k }).goto
        (.loop now (k + 1)) → PassVisit c s s'

theorem passStep_visit (h : passStep c s s.loc = some s') : PassVisit c s s' := by
  cases hloc : s.loc with
  | boot => rw [hloc] at h; cases h; exact .restart rfl
  | readNow => rw [hloc] at h; cases h; exact .restart rfl
  | resetDeadline now => rw [hloc] at h; cases h; exact .restart rfl
  | loop now k =>
    rw [hloc] at h
    simp only [passStep, Option.some.injEq] at h
    have hk : s.loc.visited c = k := by rw [hloc]; rfl
    split at h
    · split at h
      · subst h
        exact .stay (Nat.le_of_eq hk.symm) rfl
      · next hinactive => exact .next now k hk h.symm fun hactive => absurd hactive hinactive
    · next hend =>
      subst h
      refine .stay ?_ rfl
      rw [hk]
      exact Nat.le_of_not_lt hend
  | wakeTest now k =>
    rw [hloc] at h
    simp only [passStep, Option.some.injEq] at h
    have hk : s.loc.visited c = k := by rw [hloc]; rfl
    subst h
    split
    · split
      · next hwq => exact .stay (Nat.le_of_eq (hwq.symm.trans hk.symm)) rfl
      · exact .stay (Nat.le_of_eq hk.symm) rfl
    · exact .stay (Nat.le_of_eq hk.symm) rfl
  | wqPop now =>
    rw [hloc] at h
    have hk : s.loc.visited c = c.workQueueTask := by rw [hloc]; rfl
    simp only [passStep] at h
    split at h
    · cases h; exact .stay (Nat.le_of_eq hk.symm) rfl
    · split at h
      · cases h; exact .stay (Nat.le_of_eq hk.symm) rfl
      · cases h; exact .stay (Nat.le_of_eq hk.symm) rfl
  | wqPark now => rw [hloc] at h; cases h; exact .stay (by rw [hloc]; exact Nat.le_refl _) rfl
  | deadlineTest now k =>
    rw [hloc] at h
    simp only [passStep, Option.some.injEq] at h
    have hk : s.loc.visited c = k := by rw [hloc]; rfl
    split at h
    · subst h
      exact .stay (Nat.le_of_eq hk.symm) rfl
    · next hge => exact .next now k hk h.symm fun _ => Nat.le_of_not_lt hge
  | deadlineSet now k => rw [hloc] at h; cases h; exact .lower now k hloc rfl
  | plan pc =>
    rw [hloc] at h
    cases h
    cases pc <;> exact .restart rfl
  | body now k => rw [hloc] at h; cases h
  | wqBody now item => rw [hloc] at h; cases h
  | idle pc => rw [hloc] at h; cases h

theorem TasksCovered.pass (hi : TasksCovered c s) (h : passStep c s s.loc = some s')
    (hwakes : wakesVisited c s s' = false) (hraise : raisesDeadline c s .step = false) :
    TasksCovered c s' := by
  cases passStep_visit h with
  | restart hnone =>
    intro k hk
    rw [hnone] at hk
    exact absurd hk (Nat.not_lt_zero k)
  | stay hvisited hdeadline => exact hi.frame hvisited hdeadline hwakes
  | next now k hk hs hcover =>
    rw [hs]
    exact hi.loop hk hcover
  | lower now k hloc hs =>
    rw [hs]
    exact hi.deadlineSet hloc hraise

theorem machineStep_tasksCovered {a : Action n φ α} (h : machineStep c s a = some s')
    (hwakes : wakesVisited c s s' = false) (hraise : raisesDeadline c s a = false)
    (hi : TasksCovered c s) : TasksCovered c s' := by
  obtain ⟨shared, rfl, hext⟩ | ⟨-, wake, active, rfl, -⟩ | hret | ⟨pc, hloc, hidle⟩ |
    ⟨rfl, hpass⟩ := machineStep_cases h
  · exact hi.frame (Nat.le_refl _) hext.taskNextDeadline hwakes
  · exact hi.frame (Nat.le_refl _) rfl hwakes
  · unfold bodyReturn at hret
    split at hret
    · next hloc =>
      cases hret
      exact hi.frame (by rw [hloc]; exact Nat.le_refl _) rfl hwakes
    · next hloc =>
      cases hret
      exact hi.frame (by rw [hloc]; exact Nat.le_refl _) rfl hwakes
    · cases hret
  · obtain ⟨loc, mtime, rfl, rfl | ⟨pc', rfl⟩⟩ := idleStep_cases hidle
    · exact fun k hk => absurd hk (Nat.not_lt_zero k)
    · exact fun k hk => absurd hk (Nat.not_lt_zero k)
  · exact hi.pass hpass hwakes hraise

/-- In every run in which no step brings forward a task that the loop is past, and no wake time
grows between its comparison and its assignment, `task_next_deadline` is at most the wake time of
every active task whenever the pass reaches its plan. -/
theorem task_next_deadline_covers [Inhabited α] (c : PlannerConfig) (b : BootValues n)
    (active : Nat → Bool) (acts : List (Action n φ α)) (s : Machine n φ α)
    (run : Run (machineStep c)
      (fun s a s' => wakesVisited c s s' = false ∧ raisesDeadline c s a = false)
      (.load c b active) acts s)
    (hplan : s.loc = .plan .readNow) (k : Nat) (hk : k < c.tasks) (hactive : s.active k = true) :
    s.shared.taskNextDeadline ≤ s.taskWake c k := by
  have hload : TasksCovered c (.load c b active : Machine n φ α) :=
    fun j hj => absurd hj (Nat.not_lt_zero j)
  have hinv := run.invariant (P := TasksCovered c) hload
    fun _ _ _ hstep hok hi => machineStep_tasksCovered hstep hok.1 hok.2 hi
  exact hinv k (by rw [hplan]; exact hk) hactive

/-- The first pass over three tasks up to the body of the last: the second task has run and asked
to wake at 1000. -/
def firstPassToLastBody : List (Action 0 Unit Unit) :=
  List.replicate 10 .step ++ [.setWake 1 1000, .ret] ++ List.replicate 4 .step

/-- The last task asks to wake at 2000, and the pass goes on to its plan. -/
def lastBodyToPlan : List (Action 0 Unit Unit) :=
  [.setWake 2 2000, .ret] ++ List.replicate 2 .step

theorem task_next_deadline_covers_first_pass :
    ∃ s : Machine 0 Unit Unit,
      SmallRun 3 (by decide)
        (fun s a s' => wakesVisited (smallConfig 3 (by decide)) s s' = false ∧
          raisesDeadline (smallConfig 3 (by decide)) s a = false)
        (firstPassToLastBody ++ lastBodyToPlan) s ∧
      (s.loc = .plan .readNow ∧ s.active 1 = true) ∧
      s.shared.taskNextDeadline ≤ s.taskWake (smallConfig 3 (by decide)) 1 := by
  have hrun : ∃ s : Machine 0 Unit Unit,
      SmallRun 3 (by decide)
        (fun s a s' => wakesVisited (smallConfig 3 (by decide)) s s' = false ∧
          raisesDeadline (smallConfig 3 (by decide)) s a = false)
        (firstPassToLastBody ++ lastBodyToPlan) s ∧
      (s.loc = .plan .readNow ∧ s.active 1 = true) := by
    apply exists_run_of_follow (fun s : Machine 0 Unit Unit =>
      s.loc = .plan .readNow ∧ s.active 1 = true)
    decide +kernel
  obtain ⟨s, run, hplan, hactive⟩ := hrun
  exact ⟨s, run, ⟨hplan, hactive⟩,
    task_next_deadline_covers _ _ _ _ s run hplan 1 (by decide) hactive⟩

/-- The last task yields the second at time 0. The pass plans for 1000, and the second task, ready
at once, waits. -/
theorem yielded_task_not_planned :
    ∃ s : Machine 0 Unit Unit,
      SmallRun 3 (by decide) (fun _ _ _ => True)
        (firstPassToLastBody ++ [.setWake 1 0] ++ lastBodyToPlan) s ∧
      (s.loc = .plan .readNow ∧ s.active 1 = true) ∧ s.shared.taskNextDeadline = 1000 ∧
        s.taskWake (smallConfig 3 (by decide)) 1 = 0 ∧
        ¬ s.shared.taskNextDeadline ≤ s.taskWake (smallConfig 3 (by decide)) 1 :=
  exists_run_of_follow
    (fun s : Machine 0 Unit Unit => (s.loc = .plan .readNow ∧ s.active 1 = true) ∧
      s.shared.taskNextDeadline = 1000 ∧ s.taskWake (smallConfig 3 (by decide)) 1 = 0 ∧
        ¬ s.shared.taskNextDeadline ≤ s.taskWake (smallConfig 3 (by decide)) 1)
    (by decide +kernel)

end UniSdk.Planner
