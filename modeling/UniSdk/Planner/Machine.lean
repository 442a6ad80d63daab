import UniSdk.Library.Runs
import UniSdk.Planner.CallSpec

/-!
# The planner as a machine

`tlk_task_planner_run` one C statement at a time, with interrupt handlers between any two
of them. A location names the statement that runs next and holds the local variables that
are still needed. A handler's call is one step, since the handlers considered here are not
interrupted; the closed sections of the planner's own task code are one step as well. What
the bodies of tasks and work items do is left open: any sequence of planner calls and of
writes to the tasks' `wake` and `active`.
-/

namespace UniSdk.Planner

open Library.Words

variable {n : Nat} {φ α : Type}

/-- The build: the queue length, the number of tasks, which of them is
`work_queue_task_obj`, whether power management is compiled in, and the two clock rates. -/
structure PlannerConfig where
  queue : QueueSize
  tasks : Nat
  workQueueTask : Nat
  workQueueTask_lt : workQueueTask < tasks
  pm : Bool
  mtimerCyclesPerSecond : Nat
  stimerTick1S : Nat

/-- The statement of `tlk_task_planner_next_event_plan` that runs next. The writes of
`tlk_mtimer_set_mtime_compare` are the three of the register's words. -/
inductive PlanLoc
  | readNow
  | readNext (now : Nat)
  | addOne (now next : Nat)
  | moveAhead (now next cmp : Nat)
  | maskL (now next cmp : Nat)
  | writeH (now next cmp : Nat)
  | writeL (now next cmp : Nat)
  | mieEnable
  deriving DecidableEq, Repr

/-- The statement of `tlk_task_idle` that runs next. -/
inductive IdleLoc
  | compareH
  | compareL (mtimecmpH : Nat)
  | testTime (mtimecmp : Nat)
  | testWork (mtimecmp : Nat)
  | pmNow (mtimecmp : Nat)
  | pmTick (mtimecmp now : Nat)
  | pmSleep (now tick durationMs : Nat)
  | pmSetMtime (now tick : Nat)
  | wfi
  deriving DecidableEq, Repr

/-- The statement that the task context runs next. `boot` is the code before
`tlk_task_planner_run`; in `loop`, `wakeTest`, `body`, `deadlineTest` and `deadlineSet` the
loop is at task `k`; the `wq` locations are those of `tlk_task_work_queue_task`. -/
inductive Loc (φ α : Type)
  | boot
  | readNow
  | resetDeadline (now : Nat)
  | loop (now k : Nat)
  | wakeTest (now k : Nat)
  | body (now k : Nat)
  | wqPop (now : Nat)
  | wqBody (now : Nat) (item : WorkItem φ α)
  | wqPark (now : Nat)
  | deadlineTest (now k : Nat)
  | deadlineSet (now k : Nat)
  | plan (pc : PlanLoc)
  | idle (pc : IdleLoc)
  deriving DecidableEq, Repr

/-- The state of the machine. `wake` and `active` are the tasks' fields, except that the
`wake` of the work queue task is in `shared`. The last three fields are history: the work
items whose function has returned, and for the current pass how many items had been accepted
when it read the clock and whether it ran the work queue task. -/
structure Machine (n : Nat) (φ α : Type) where
  shared : PlannerState n φ α
  wake : Nat → Nat
  active : Nat → Bool
  loc : Loc φ α
  executed : List (WorkItem φ α)
  snapshot : Nat
  ran : Bool

/-- `isr` is a call from a handler, `msi` the software interrupt's handler, which claims and
completes; `call`, `setWake`, `setActive` and `ret` are what a running body does; `sleep` is
the outcome of `TLK_PM_SLEEP_MS` and `stimer` a reading of the system timer. -/
inductive Action (n : Nat) (φ α : Type)
  | tick (d : Nat)
  | isr (call : Call n φ α)
  | msi
  | call (call : Call n φ α)
  | setWake (k wake : Nat)
  | setActive (k : Nat) (active : Bool)
  | ret
  | sleep (ok : Bool)
  | stimer (tick : Nat)
  | step

namespace Machine

/-- `TASK_SPAWN` for the work queue task; the other tasks may be registered inactive. -/
def load [Inhabited α] (c : PlannerConfig) (b : BootValues n) (active : Nat → Bool) :
    Machine n φ α where
  shared := .load b
  wake := fun _ => 0
  active := Function.update active c.workQueueTask true
  loc := .boot
  executed := []
  snapshot := 0
  ran := false

/-- `t->wake` of task `k`. -/
def taskWake (c : PlannerConfig) (s : Machine n φ α) (k : Nat) : Nat :=
  if k = c.workQueueTask then s.shared.work.wake else s.wake k

def goto (loc : Loc φ α) (s : Machine n φ α) : Machine n φ α := { s with loc }

def onShared (f : PlannerState n φ α → PlannerState n φ α) (s : Machine n φ α) :
    Machine n φ α := { s with shared := f s.shared }

def withQueue (q : WorkQueue φ α) (s : Machine n φ α) : Machine n φ α :=
  s.onShared fun p => { p with work := { p.work with sWorkQueue := q } }

end Machine

open Machine

/-- One statement of the plan. -/
def planStep (s : Machine n φ α) : PlanLoc → Machine n φ α
  | .readNow => s.goto (.plan (.readNext (tlkMtimerGetMtime s.shared)))
  | .readNext now => s.goto (.plan (.addOne now s.shared.nextDeadline))
  | .addOne now next => s.goto (.plan (.moveAhead now next (u64 (next + 1))))
  | .moveAhead now next cmp =>
    s.goto (.plan (.maskL now next (if notBefore now cmp then u64 (now + 1) else cmp)))
  | .maskL now next cmp =>
    (s.onShared fun p => { p with compareL := 0xffffffff }).goto (.plan (.writeH now next cmp))
  | .writeH now next cmp =>
    (s.onShared fun p => { p with compareH := u32 (cmp / 2 ^ 32) }).goto
      (.plan (.writeL now next cmp))
  | .writeL now _ cmp =>
    (s.onShared fun p => { p with compareL := u32 cmp, planNow := now }).goto (.plan .mieEnable)
  | .mieEnable => (s.onShared PlannerState.mieEnable).goto (.idle .compareH)

/-- One statement of the idle function, given what the environment answers. -/
def idleStep (c : PlannerConfig) (s : Machine n φ α) :
    IdleLoc → Action n φ α → Option (Machine n φ α)
  | .compareH, .step => some (s.goto (.idle (.compareL s.shared.compareH)))
  | .compareL h, .step => some (s.goto (.idle (.testTime (h * 2 ^ 32 + s.shared.compareL))))
  | .testTime mtimecmp, .step =>
    some (s.goto
      (if tlkMtimerGetMtime s.shared < mtimecmp then .idle (.testWork mtimecmp) else .readNow))
  | .testWork mtimecmp, .step =>
    some (s.goto
      (if tlkTaskWorkIsPending s.shared.work.sWorkQueue then .readNow
      else if c.pm then .idle (.pmNow mtimecmp) else .idle .wfi))
  | .pmNow mtimecmp, .step =>
    some (s.goto (.idle (.pmTick mtimecmp (tlkMtimerGetMtime s.shared))))
  | .pmTick mtimecmp now, .stimer tick =>
    some (s.goto (.idle (.pmSleep now tick
      (u32 (u64 (mtimecmp + (2 ^ 64 - now)) / (c.mtimerCyclesPerSecond / 1000))))))
  | .pmSleep now tick _, .sleep ok =>
    some (s.goto (if ok then .idle (.pmSetMtime now tick) else .idle .wfi))
  | .pmSetMtime now tick, .stimer tick' =>
    some ((s.onShared fun p =>
      { p with
        mtime := u64 (now + u64 (u32 (tick' + (2 ^ 32 - tick)) * c.mtimerCyclesPerSecond) /
          c.stimerTick1S) }).goto .readNow)
  | .wfi, .step => some (s.goto .readNow)
  | _, _ => none

/-- One statement of the pass over the tasks, in the work queue task or around a task. -/
def passStep (c : PlannerConfig) (s : Machine n φ α) : Loc φ α → Option (Machine n φ α)
  | .boot => some (s.goto .readNow)
  | .readNow =>
    some { s with
      loc := .resetDeadline (tlkMtimerGetMtime s.shared)
      snapshot := s.shared.accepted.length
      ran := false }
  | .resetDeadline now =>
    some ((s.onShared fun p => { p with taskNextDeadline := UINT64_MAX }).goto (.loop now 0))
  | .loop now k =>
    some (s.goto
      (if k < c.tasks then if s.active k then .wakeTest now k else .loop now (k + 1)
      else .plan .readNow))
  | .wakeTest now k =>
    some (if notBefore now (s.taskWake c k) then
        if k = c.workQueueTask then { s with loc := .wqPop now, ran := true }
        else s.goto (.body now k)
      else s.goto (.deadlineTest now k))
  | .wqPop now =>
    match tlkTaskWorkQueuePop c.queue s.shared.work.sWorkQueue with
    | (none, q) => some ((s.withQueue q).goto (.wqPark now))
    | (some item, q) =>
      if item.fn.isSome then some ((s.withQueue q).goto (.wqBody now item))
      else some { s.withQueue q with loc := .wqPop now, executed := s.executed ++ [item] }
  | .wqPark now =>
    some ((s.onShared fun p => { p with work := { p.work with wake := UINT64_MAX } }).goto
      (.deadlineTest now c.workQueueTask))
  | .deadlineTest now k =>
    some (s.goto
      (if s.taskWake c k < s.shared.taskNextDeadline then .deadlineSet now k
      else .loop now (k + 1)))
  | .deadlineSet now k =>
    some ((s.onShared fun p => { p with taskNextDeadline := s.taskWake c k }).goto
      (.loop now (k + 1)))
  | .plan pc => some (planStep s pc)
  | .body .. | .wqBody .. | .idle .. => none

/-- Is foreign code running: the boot code, a task or a work item? -/
def Loc.inBody : Loc φ α → Bool
  | .boot | .body .. | .wqBody .. => true
  | _ => false

/-- The return of a task or of a work item. -/
def bodyReturn (s : Machine n φ α) : Option (Machine n φ α) :=
  match s.loc with
  | .body now k => some (s.goto (.deadlineTest now k))
  | .wqBody now item => some { s with loc := .wqPop now, executed := s.executed ++ [item] }
  | _ => none

/-- The interrupt's function is called by its handler only. -/
def Call.fromTask : Call n φ α → Bool
  | .mtimerIrq .. => false
  | _ => true

/-- One step of the machine. The work queue task's object is private to the planner, so no
body writes its fields. -/
def machineStep (c : PlannerConfig) (s : Machine n φ α) (a : Action n φ α) :
    Option (Machine n φ α) :=
  match a with
  | .tick d => some (s.onShared (·.tick d))
  | .isr call => some (s.onShared (call.run c.queue))
  | .msi =>
    some (s.onShared fun p => { p with work := { p.work with swPending := false } })
  | .call call =>
    if s.loc.inBody ∧ call.fromTask then some (s.onShared (call.run c.queue)) else none
  | .setWake k wake =>
    if s.loc.inBody ∧ k ≠ c.workQueueTask then
      some { s with wake := Function.update s.wake k wake }
    else none
  | .setActive k active =>
    if s.loc.inBody ∧ k ≠ c.workQueueTask then
      some { s with active := Function.update s.active k active }
    else none
  | .ret => bodyReturn s
  | .sleep _ | .stimer _ =>
    match s.loc with
    | .idle pc => idleStep c s pc a
    | _ => none
  | .step =>
    match s.loc with
    | .idle pc => idleStep c s pc .step
    | loc => passStep c s loc

/-- What happens to the shared data from outside the planner's own statements: a planner call,
the passing of time among them, or the software interrupt's handler. -/
inductive External (c : QueueSize) : PlannerState n φ α → PlannerState n φ α → Prop
  | call (call : Call n φ α) (p : PlannerState n φ α) : External c p (call.run c p)
  | msi (p : PlannerState n φ α) :
    External c p { p with work := { p.work with swPending := false } }

theorem External.serves {c : QueueSize} {p p' : PlannerState n φ α} (h : External c p p') :
    Serves c p p' := by
  cases h with
  | call call => exact call.run_serves p
  | msi => exact .of_eq (Nat.le_refl _) rfl rfl rfl rfl

/-- What a step can be: something from outside or a call, which leaves the location alone; a
write of a body to the other tasks' fields; or the task context's own next statement. -/
theorem machineStep_cases {c : PlannerConfig} {s s' : Machine n φ α} {a : Action n φ α}
    (h : machineStep c s a = some s') :
    (∃ shared, s' = { s with shared } ∧ External c.queue s.shared shared) ∨
    (s.loc.inBody ∧ ∃ wake active, s' = { s with wake, active } ∧
      active c.workQueueTask = s.active c.workQueueTask) ∨
    bodyReturn s = some s' ∨
    (∃ pc, s.loc = .idle pc ∧ idleStep c s pc a = some s') ∨
    (a = .step ∧ passStep c s s.loc = some s') := by
  cases a with
  | tick d =>
    cases h
    exact .inl ⟨_, rfl, .call (.tick d) s.shared⟩
  | isr call =>
    cases h
    exact .inl ⟨_, rfl, .call call s.shared⟩
  | msi =>
    cases h
    exact .inl ⟨_, rfl, .msi s.shared⟩
  | call call =>
    simp only [machineStep] at h
    split at h
    · cases h
      exact .inl ⟨_, rfl, .call call s.shared⟩
    · cases h
  | setWake k wake =>
    simp only [machineStep] at h
    split at h
    · next hg =>
      cases h
      exact .inr (.inl ⟨hg.1, _, s.active, rfl, rfl⟩)
    · cases h
  | setActive k active =>
    simp only [machineStep] at h
    split at h
    · next hg =>
      cases h
      exact .inr (.inl ⟨hg.1, s.wake, _, rfl, Function.update_of_ne (Ne.symm hg.2) _ _⟩)
    · cases h
  | ret => exact .inr (.inr (.inl h))
  | sleep ok =>
    simp only [machineStep] at h
    split at h
    · next pc hloc => exact .inr (.inr (.inr (.inl ⟨pc, hloc, h⟩)))
    · cases h
  | stimer tick =>
    simp only [machineStep] at h
    split at h
    · next pc hloc => exact .inr (.inr (.inr (.inl ⟨pc, hloc, h⟩)))
    · cases h
  | step =>
    simp only [machineStep] at h
    split at h
    · next pc hloc => exact .inr (.inr (.inr (.inl ⟨pc, hloc, h⟩)))
    · exact .inr (.inr (.inr (.inr ⟨rfl, h⟩)))

/-- The idle function changes the clock at most, and either goes on or returns. -/
theorem idleStep_cases {c : PlannerConfig} {s s' : Machine n φ α} {pc : IdleLoc}
    {a : Action n φ α} (h : idleStep c s pc a = some s') :
    ∃ loc mtime, s' = { s with loc, shared := { s.shared with mtime } } ∧
      (loc = .readNow ∨ ∃ pc', loc = .idle pc') := by
  unfold idleStep at h
  split at h
  · cases h; exact ⟨_, _, rfl, .inr ⟨_, rfl⟩⟩
  · cases h; exact ⟨_, _, rfl, .inr ⟨_, rfl⟩⟩
  · cases h
    refine ⟨_, _, rfl, ?_⟩
    split
    · exact .inr ⟨_, rfl⟩
    · exact .inl rfl
  · cases h
    refine ⟨_, _, rfl, ?_⟩
    split
    · exact .inl rfl
    · split
      · exact .inr ⟨_, rfl⟩
      · exact .inr ⟨_, rfl⟩
  · cases h; exact ⟨_, _, rfl, .inr ⟨_, rfl⟩⟩
  · cases h; exact ⟨_, _, rfl, .inr ⟨_, rfl⟩⟩
  · cases h
    refine ⟨_, _, rfl, ?_⟩
    split
    · exact .inr ⟨_, rfl⟩
    · exact .inr ⟨_, rfl⟩
  · cases h; exact ⟨_, _, rfl, .inl rfl⟩
  · cases h; exact ⟨_, _, rfl, .inl rfl⟩
  · cases h

/-- The pop of the work queue task finds the queue empty, or takes the oldest item. -/
theorem wqPop_cases {c : PlannerConfig} {s s' : Machine n φ α} {now : Nat}
    (hc : s.shared.work.sWorkQueue.Consistent c.queue)
    (h : passStep c s (.wqPop now) = some s') :
    (s.shared.work.sWorkQueue.items c.queue = [] ∧ s' = s.goto (.wqPark now)) ∨
    (∃ item q, q.Consistent c.queue ∧
      s.shared.work.sWorkQueue.items c.queue = item :: q.items c.queue ∧
      (s' = (s.withQueue q).goto (.wqBody now item) ∨
        s' = { s.withQueue q with loc := .wqPop now, executed := s.executed ++ [item] })) := by
  obtain ⟨hcons, hfst, hitems⟩ := hc.pop
  unfold passStep at h
  cases hlist : s.shared.work.sWorkQueue.items c.queue with
  | nil =>
    left
    have hcount : s.shared.work.sWorkQueue.workQCount = 0 := by
      rw [← WorkQueue.items_length c.queue, hlist, List.length_nil]
    have hpop : tlkTaskWorkQueuePop c.queue s.shared.work.sWorkQueue =
        (none, s.shared.work.sWorkQueue) := by
      simp [tlkTaskWorkQueuePop, tlkTaskWorkQueueIsEmpty, hcount]
    rw [hpop] at h
    cases h
    exact ⟨rfl, rfl⟩
  | cons item rest =>
    right
    rw [hlist] at hfst hitems
    cases hpop : tlkTaskWorkQueuePop c.queue s.shared.work.sWorkQueue with
    | mk first q =>
      rw [hpop] at h hcons hfst hitems
      cases hfst
      refine ⟨item, q, hcons, by rw [hitems]; rfl, ?_⟩
      dsimp only [Library.BoundedFifo.pop] at h
      split at h
      · cases h; exact .inl rfl
      · cases h; exact .inr rfl

/-- A location of the pass over the tasks, or the start of its plan. -/
def Loc.inPass : Loc φ α → Bool
  | .plan .readNow => true
  | .plan _ | .idle _ => false
  | _ => true

/-- What the statements of the pass, its plan apart, leave alone. -/
structure PassFrame (c : PlannerConfig) (s s' : Machine n φ α) : Prop where
  noPlan : ∀ pc, s.loc ≠ .plan pc
  compareH : s'.shared.compareH = s.shared.compareH
  compareL : s'.shared.compareL = s.shared.compareL
  deadline : s'.shared.timerNextDeadline = s.shared.timerNextDeadline
  planNow : s'.shared.planNow = s.shared.planNow
  consistent : s.shared.work.sWorkQueue.Consistent c.queue →
    s'.shared.work.sWorkQueue.Consistent c.queue
  inPass : s'.loc.inPass = true

theorem PassFrame.goto (c : PlannerConfig) {s : Machine n φ α} {loc : Loc φ α}
    (hs : ∀ pc, s.loc ≠ .plan pc) (h : loc.inPass = true) : PassFrame c s (s.goto loc) :=
  ⟨hs, rfl, rfl, rfl, rfl, id, h⟩

/-- A statement of the task context is one of the plan, or it keeps to the pass. -/
theorem passStep_cases {c : PlannerConfig} {s s' : Machine n φ α}
    (h : passStep c s s.loc = some s') :
    (∃ pc, s.loc = .plan pc ∧ s' = planStep s pc) ∨ PassFrame c s s' := by
  have hstart : (∃ pc, s.loc = .plan pc) ∨ ∀ pc, s.loc ≠ .plan pc := by
    rw [← not_exists]
    exact Classical.em _
  obtain ⟨pc, hloc⟩ | hs := hstart
  · rw [hloc] at h
    cases h
    exact .inl ⟨pc, hloc, rfl⟩
  right
  cases hloc : s.loc with
  | boot => rw [hloc] at h; cases h; exact .goto c hs rfl
  | readNow => rw [hloc] at h; cases h; exact ⟨hs, rfl, rfl, rfl, rfl, id, rfl⟩
  | resetDeadline now => rw [hloc] at h; cases h; exact ⟨hs, rfl, rfl, rfl, rfl, id, rfl⟩
  | loop now k =>
    rw [hloc] at h
    cases h
    refine .goto c hs ?_
    split
    · split <;> rfl
    · rfl
  | wakeTest now k =>
    rw [hloc] at h
    cases h
    split
    · split
      · exact ⟨hs, rfl, rfl, rfl, rfl, id, rfl⟩
      · exact .goto c hs rfl
    · exact .goto c hs rfl
  | wqPop now =>
    rw [hloc] at h
    have hpop := fun hc : s.shared.work.sWorkQueue.Consistent c.queue => hc.pop.1
    simp only [passStep] at h
    split at h
    · next q hq =>
      rw [hq] at hpop
      cases h
      exact ⟨hs, rfl, rfl, rfl, rfl, hpop, rfl⟩
    · next item q hq =>
      rw [hq] at hpop
      split at h
      · cases h; exact ⟨hs, rfl, rfl, rfl, rfl, hpop, rfl⟩
      · cases h; exact ⟨hs, rfl, rfl, rfl, rfl, hpop, rfl⟩
  | wqPark now => rw [hloc] at h; cases h; exact ⟨hs, rfl, rfl, rfl, rfl, id, rfl⟩
  | deadlineTest now k =>
    rw [hloc] at h
    cases h
    refine .goto c hs ?_
    split <;> rfl
  | deadlineSet now k => rw [hloc] at h; cases h; exact ⟨hs, rfl, rfl, rfl, rfl, id, rfl⟩
  | plan pc => exact absurd hloc (hs pc)
  | body now k => rw [hloc] at h; cases h
  | wqBody now item => rw [hloc] at h; cases h
  | idle pc => rw [hloc] at h; cases h

/-- A statement of the plan concerns neither the queue nor the history of submits, and leads to
the next one or to the idle function. -/
theorem planStep_cases (s : Machine n φ α) (pc : PlanLoc) :
    ∃ shared loc, planStep s pc = { s with shared, loc } ∧
      shared.work.sWorkQueue = s.shared.work.sWorkQueue ∧
      shared.work.wake = s.shared.work.wake ∧ shared.accepted = s.shared.accepted ∧
      shared.acceptedAt = s.shared.acceptedAt ∧
      ((∃ pc', loc = .plan pc') ∨ loc = .idle .compareH) := by
  cases pc with
  | mieEnable => exact ⟨_, _, rfl, rfl, rfl, rfl, rfl, .inr rfl⟩
  | _ => exact ⟨_, _, rfl, rfl, rfl, rfl, rfl, .inl ⟨_, rfl⟩⟩

/-- A body's return goes on with the pass. -/
theorem bodyReturn_frame {c : PlannerConfig} {s s' : Machine n φ α} (h : bodyReturn s = some s') :
    PassFrame c s s' := by
  unfold bodyReturn at h
  split at h
  · next hloc => cases h; exact .goto c (by rw [hloc]; exact fun _ => nofun) rfl
  · next hloc => cases h; exact ⟨by rw [hloc]; exact fun _ => nofun, rfl, rfl, rfl, rfl, id, rfl⟩
  · cases h

/-- A build with room for two work items, no power management and `tasks` tasks, of which the
work queue task is the first. -/
def smallConfig (tasks : Nat) (h : 0 < tasks) : PlannerConfig where
  queue := smallQueue
  tasks := tasks
  workQueueTask := 0
  workQueueTask_lt := h
  pm := false
  mtimerCyclesPerSecond := 24000000
  stimerTick1S := 24000000

/-- Runs of the small build from the load of the image, all tasks active. -/
abbrev SmallRun (tasks : Nat) (h : 0 < tasks)
    (ok : Machine n Unit Unit → Action n Unit Unit → Machine n Unit Unit → Prop)
    (acts : List (Action n Unit Unit)) (s : Machine n Unit Unit) : Prop :=
  Library.Runs.Run (machineStep (smallConfig tasks h)) ok
    (.load (smallConfig tasks h) (bootAtZero n) fun _ => true) acts s

end UniSdk.Planner
