import UniSdk.Planner.Parked
import UniSdk.Planner.Pass

/-!
# How long does work wait?

Work that has been accepted, and a task whose wake time has come, wait for the statements of the
planner and for the returns of the code it calls, and for nothing else. While they wait each of
these comes nearer to their turn: a pass that has read the clock in time reaches it, any other
pass ends and is followed by one that does.
-/

namespace UniSdk.Planner

open Library.Words Library.Runs Machine

variable {n : Nat} {φ α : Type}

/-- The task context does something: a statement of the planner, or the return of what it
called. -/
def Action.own : Action n φ α → Bool
  | .ret | .sleep _ | .stimer _ | .step => true
  | .tick _ | .isr _ | .msi | .call _ | .setWake .. | .setActive .. => false

/-- The task that the pass is at is one of the tasks. -/
def Loc.inRange (c : PlannerConfig) : Loc φ α → Prop
  | .loop _ k => k ≤ c.tasks
  | .wakeTest _ k | .deadlineTest _ k | .deadlineSet _ k => k < c.tasks
  | .body _ k => k < c.tasks ∧ k ≠ c.workQueueTask
  | _ => True

/-- What holds in every run in which the clock does not go back. -/
structure WorkInv (c : PlannerConfig) (s : Machine n φ α) : Prop where
  consistent : s.shared.work.sWorkQueue.Consistent c.queue
  active : s.active c.workQueueTask = true
  accounts : s.shared.accepted =
    s.executed ++ s.loc.inFlight ++ s.shared.work.sWorkQueue.items c.queue
  clock : s.shared.mtime < 2 ^ 63 - 1
  accepted_past : s.shared.acceptedAt ≤ s.shared.mtime
  wake : s.shared.work.wake = UINT64_MAX ∨ s.shared.work.wake ≤ s.shared.acceptedAt
  inRange : s.loc.inRange c
  reading : ∀ now, s.loc.passNow = some now → now < 2 ^ 63 - 1

variable {c : PlannerConfig} {s s' : Machine n φ α}

theorem WorkInv.frame (hi : WorkInv c s) (hclock : ClockOk s s')
    (hqueue : s'.shared.work.sWorkQueue = s.shared.work.sWorkQueue)
    (hwake : s'.shared.work.wake = UINT64_MAX ∨ s'.shared.work.wake = s.shared.work.wake)
    (haccepted : s'.shared.accepted = s.shared.accepted)
    (hat : s'.shared.acceptedAt = s.shared.acceptedAt)
    (hactive : s'.active c.workQueueTask = s.active c.workQueueTask)
    (hexecuted : s'.executed ++ s'.loc.inFlight = s.executed ++ s.loc.inFlight)
    (hrange : s'.loc.inRange c)
    (hnow : ∀ now, s'.loc.passNow = some now → now < 2 ^ 63 - 1) : WorkInv c s' where
  consistent := by rw [hqueue]; exact hi.consistent
  active := by rw [hactive]; exact hi.active
  accounts := by rw [haccepted, hqueue, hexecuted]; exact hi.accounts
  clock := hclock.2
  accepted_past := by rw [hat]; exact Nat.le_trans hi.accepted_past hclock.1
  wake := by
    rw [hat]
    rcases hwake with hmax | hsame
    · exact .inl hmax
    · rw [hsame]; exact hi.wake
  inRange := hrange
  reading := hnow

/-- A call may accept more work, at a time that has come. -/
theorem WorkInv.serve {shared : PlannerState n φ α} (hi : WorkInv c s)
    (hserves : Serves c.queue s.shared shared) (hclock : ClockOk s { s with shared }) :
    WorkInv c { s with shared } := by
  obtain ⟨extra, hacc⟩ := hserves hi.consistent
  refine ⟨hacc.consistent, hi.active, ?_, hclock.2, ?_, ?_, hi.inRange, hi.reading⟩
  · dsimp only
    rw [hacc.accepted, hacc.items, hi.accounts, List.append_assoc]
  · by_cases he : extra = []
    · rw [(hacc.idle he).1]
      exact Nat.le_trans hi.accepted_past hclock.1
    · obtain ⟨-, t, ht, hat⟩ := hacc.woken he
      have hbound := hclock.2
      dsimp only at hbound ⊢
      rw [hat, u64_of_lt (by omega)]
      exact ht
  · by_cases he : extra = []
    · rw [(hacc.idle he).1, (hacc.idle he).2]
      exact hi.wake
    · exact .inr (Nat.le_of_eq (hacc.woken he).1)

/-- A statement of the pass other than the pop leaves the queue and the history alone. -/
structure WorkFrame (s s' : Machine n φ α) : Prop where
  queue : s'.shared.work.sWorkQueue = s.shared.work.sWorkQueue
  wake : s'.shared.work.wake = UINT64_MAX ∨ s'.shared.work.wake = s.shared.work.wake
  accepted : s'.shared.accepted = s.shared.accepted
  acceptedAt : s'.shared.acceptedAt = s.shared.acceptedAt
  active : s'.active = s.active
  wakes : s'.wake = s.wake
  executed : s'.executed ++ s'.loc.inFlight = s.executed ++ s.loc.inFlight

theorem passStep_workFrame (h : passStep c s s.loc = some s') (hpop : ∀ now, s.loc ≠ .wqPop now) :
    WorkFrame s s' := by
  cases hloc : s.loc with
  | boot | readNow | resetDeadline now | deadlineSet now k =>
    rw [hloc] at h
    cases h
    exact ⟨rfl, .inr rfl, rfl, rfl, rfl, rfl, by rw [hloc]; rfl⟩
  | loop now k =>
    rw [hloc] at h
    cases h
    refine ⟨rfl, .inr rfl, rfl, rfl, rfl, rfl, ?_⟩
    rw [hloc]
    dsimp only [goto]
    split
    · split <;> rfl
    · rfl
  | wakeTest now k =>
    rw [hloc] at h
    cases h
    split
    · split
      · exact ⟨rfl, .inr rfl, rfl, rfl, rfl, rfl, by rw [hloc]; rfl⟩
      · exact ⟨rfl, .inr rfl, rfl, rfl, rfl, rfl, by rw [hloc]; rfl⟩
    · exact ⟨rfl, .inr rfl, rfl, rfl, rfl, rfl, by rw [hloc]; rfl⟩
  | wqPop now => exact absurd hloc (hpop now)
  | wqPark now =>
    rw [hloc] at h
    cases h
    exact ⟨rfl, .inl rfl, rfl, rfl, rfl, rfl, by rw [hloc]; rfl⟩
  | deadlineTest now k =>
    rw [hloc] at h
    cases h
    refine ⟨rfl, .inr rfl, rfl, rfl, rfl, rfl, ?_⟩
    rw [hloc]
    dsimp only [goto]
    split <;> rfl
  | plan pc =>
    rw [hloc] at h
    cases h
    cases pc <;> exact ⟨rfl, .inr rfl, rfl, rfl, rfl, rfl, by rw [hloc]; rfl⟩
  | body now k => rw [hloc] at h; cases h
  | wqBody now item => rw [hloc] at h; cases h
  | idle pc => rw [hloc] at h; cases h

theorem passStep_inRange (h : passStep c s s.loc = some s') (hi : s.loc.inRange c) :
    s'.loc.inRange c := by
  cases hloc : s.loc with
  | boot | readNow => rw [hloc] at h; cases h; trivial
  | resetDeadline now => rw [hloc] at h; cases h; exact Nat.zero_le _
  | loop now k =>
    rw [hloc] at h hi
    cases h
    dsimp only [goto]
    split
    · next hk =>
      split
      · exact hk
      · exact hk
    · trivial
  | wakeTest now k =>
    rw [hloc] at h hi
    cases h
    split
    · split
      · trivial
      · next hk => exact ⟨hi, hk⟩
    · exact hi
  | wqPop now =>
    rw [hloc] at h
    simp only [passStep] at h
    split at h
    · cases h; trivial
    · split at h
      · cases h; trivial
      · cases h; trivial
  | wqPark now => rw [hloc] at h; cases h; exact c.workQueueTask_lt
  | deadlineTest now k =>
    rw [hloc] at h hi
    cases h
    dsimp only [goto]
    split
    · exact hi
    · exact hi
  | deadlineSet now k => rw [hloc] at h hi; cases h; exact hi
  | plan pc => rw [hloc] at h; cases h; cases pc <;> trivial
  | body now k => rw [hloc] at h; cases h
  | wqBody now item => rw [hloc] at h; cases h
  | idle pc => rw [hloc] at h; cases h

theorem WorkInv.pass (hi : WorkInv c s) (hclock : ClockOk s s')
    (h : passStep c s s.loc = some s') : WorkInv c s' := by
  have hrange := passStep_inRange h hi.inRange
  have hnow : ∀ now, s'.loc.passNow = some now → now < 2 ^ 63 - 1 := by
    intro now hs'
    rcases passStep_passNow h now hs' with hsame | rfl
    · exact hi.reading now hsame
    · have hbound := hi.clock
      rw [tlkMtimerGetMtime, u64_of_lt (by omega)]
      exact hbound
  by_cases hpop : ∃ now, s.loc = .wqPop now
  · obtain ⟨now, hloc⟩ := hpop
    have haccounts := hi.accounts
    rw [hloc] at h haccounts
    obtain ⟨-, rfl⟩ | ⟨item, q, hq, hitems, hs⟩ := wqPop_cases hi.consistent h
    · exact hi.frame hclock rfl (.inr rfl) rfl rfl rfl (by rw [hloc]; rfl) hrange hnow
    · rw [hitems] at haccounts
      simp only [Loc.inFlight, List.append_nil] at haccounts
      rw [List.append_cons] at haccounts
      obtain rfl | rfl := hs
      · exact ⟨hq, hi.active, haccounts, hi.clock, hi.accepted_past, hi.wake, hrange, hnow⟩
      · refine ⟨hq, hi.active, ?_, hi.clock, hi.accepted_past, hi.wake, hrange, hnow⟩
        show s.shared.accepted = s.executed ++ [item] ++ [] ++ q.items c.queue
        rw [haccounts, List.append_nil]
  · have hf := passStep_workFrame h (not_exists.mp hpop)
    exact hi.frame hclock hf.queue hf.wake hf.accepted hf.acceptedAt (congrFun hf.active _)
      hf.executed hrange hnow

theorem WorkInv.ret (hi : WorkInv c s) (hclock : ClockOk s s') (h : bodyReturn s = some s') :
    WorkInv c s' := by
  have hrange := hi.inRange
  have hnow := hi.reading
  unfold bodyReturn at h
  split at h
  · next now k hloc =>
    cases h
    rw [hloc] at hrange hnow
    exact hi.frame hclock rfl (.inr rfl) rfl rfl rfl (by rw [hloc]; rfl) hrange.1 hnow
  · next now item hloc =>
    cases h
    rw [hloc] at hnow
    exact hi.frame hclock rfl (.inr rfl) rfl rfl rfl (by rw [hloc]; exact List.append_nil _)
      trivial hnow
  · cases h

theorem WorkInv.idle {pc : IdleLoc} {a : Action n φ α} (hi : WorkInv c s) (hclock : ClockOk s s')
    (hloc : s.loc = .idle pc) (h : idleStep c s pc a = some s') : WorkInv c s' := by
  have hflight : s.loc.inFlight = [] := by rw [hloc]; rfl
  obtain ⟨loc, mtime, rfl, hnext⟩ := idleStep_cases h
  have hnext' : loc.inFlight = [] ∧ loc.inRange c ∧ loc.passNow = none := by
    obtain rfl | ⟨pc', rfl⟩ := hnext
    · exact ⟨rfl, trivial, rfl⟩
    · exact ⟨rfl, trivial, rfl⟩
  refine hi.frame hclock rfl (.inr rfl) rfl rfl rfl ?_ hnext'.2.1 fun now hs' => ?_
  · rw [hflight]
    exact congrArg _ hnext'.1
  · dsimp only at hs'
    rw [hnext'.2.2] at hs'
    cases hs'

theorem machineStep_workInv {a : Action n φ α} (h : machineStep c s a = some s')
    (hclock : ClockOk s s') (hi : WorkInv c s) : WorkInv c s' := by
  obtain ⟨shared, rfl, hext⟩ | ⟨-, wake, active, rfl, hactive⟩ | hret | ⟨pc, hloc, hidle⟩ |
    ⟨-, hpass⟩ := machineStep_cases h
  · exact hi.serve hext.serves hclock
  · exact hi.frame hclock rfl (.inr rfl) rfl rfl hactive rfl hi.inRange hi.reading
  · exact hi.ret hclock hret
  · exact hi.idle hclock hloc hidle
  · exact hi.pass hclock hpass

theorem load_workInv [Inhabited α] (c : PlannerConfig) (b : BootValues n) (active : Nat → Bool)
    (hb : b.mtime < 2 ^ 63 - 1) : WorkInv c (.load c b active : Machine n φ α) where
  consistent := WorkQueue.init_consistent c.queue
  active := Function.update_self ..
  accounts := rfl
  clock := hb
  accepted_past := Nat.zero_le _
  wake := .inr (Nat.le_refl _)
  inRange := trivial
  reading := fun _ h => nomatch h

/-! ## How many statements are left -/

def PlanLoc.left : PlanLoc → Nat
  | .readNow => 18
  | .readNext _ => 17
  | .addOne .. => 16
  | .moveAhead .. => 15
  | .maskL .. => 14
  | .writeH .. => 13
  | .writeL .. => 12
  | .mieEnable => 11

def IdleLoc.left : IdleLoc → Nat
  | .compareH => 10
  | .compareL _ => 9
  | .testTime _ => 8
  | .testWork _ => 7
  | .pmNow _ => 6
  | .pmTick .. => 5
  | .pmSleep .. => 4
  | .pmSetMtime .. => 3
  | .wfi => 2

/-- The work queue task's turn, when the queue is full. -/
def turnLength (c : PlannerConfig) : Nat := 2 * c.queue.size + 4

/-- A bound on the own statements of a pass with its plan and the idle function. -/
def passLength (c : PlannerConfig) : Nat := 5 * c.tasks + turnLength c + 24

/-- A bound on the own statements to the end of the pass, with `waiting` items in the queue. -/
def Loc.left (c : PlannerConfig) (waiting : Nat) : Loc φ α → Nat
  | .boot => passLength c + 1
  | .readNow => passLength c
  | .resetDeadline _ => passLength c - 1
  | .loop _ k =>
    19 + 5 * (c.tasks - k) + (if k ≤ c.workQueueTask then turnLength c else 0)
  | .wakeTest _ k =>
    18 + 5 * (c.tasks - k) + (if k ≤ c.workQueueTask then turnLength c else 0)
  | .body _ k => 17 + 5 * (c.tasks - k) + (if k < c.workQueueTask then turnLength c else 0)
  | .wqBody .. => 19 + 5 * (c.tasks - c.workQueueTask) + 2 * waiting
  | .wqPop _ => 18 + 5 * (c.tasks - c.workQueueTask) + 2 * waiting
  | .wqPark _ => 17 + 5 * (c.tasks - c.workQueueTask)
  | .deadlineTest _ k =>
    16 + 5 * (c.tasks - k) + (if k < c.workQueueTask then turnLength c else 0)
  | .deadlineSet _ k =>
    15 + 5 * (c.tasks - k) + (if k < c.workQueueTask then turnLength c else 0)
  | .plan pc => pc.left
  | .idle pc => pc.left

/-- The pass has read the clock at `t` or later, or has yet to read it, and the turn of task `k`
is to come or, if it is the work queue task, not over. -/
def Loc.reaches (c : PlannerConfig) (k t : Nat) : Loc φ α → Bool
  | .boot | .readNow => true
  | .resetDeadline now => t ≤ now
  | .loop now j | .wakeTest now j => t ≤ now && j ≤ k
  | .body now j | .deadlineTest now j | .deadlineSet now j => t ≤ now && decide (j < k)
  | .wqPop now | .wqBody now _ => k == c.workQueueTask || t ≤ now && c.workQueueTask < k
  | .wqPark now => t ≤ now && c.workQueueTask < k
  | .plan _ | .idle _ => false

/-- A bound on the own statements until the turn of task `k` in a pass whose clock value is `t` or
later. -/
def untilTurn (c : PlannerConfig) (k t : Nat) (s : Machine n φ α) : Nat :=
  s.loc.left c s.shared.work.sWorkQueue.workQCount +
    if s.loc.reaches c k t then 0 else passLength c + 1

/-- Task `k` is active, and due by every clock value from `t` on, and `t` has come. -/
structure Awaits (c : PlannerConfig) (k t : Nat) (s : Machine n φ α) : Prop where
  inv : WorkInv c s
  past : t ≤ s.shared.mtime
  active : s.active k = true
  due : ∀ now, t ≤ now → now < 2 ^ 63 - 1 → notBefore now (s.taskWake c k) = true
  task : k < c.tasks

/-- The step enters task `k`, or ends the work queue task's turn if `k` is that task. -/
def Arrives (c : PlannerConfig) (k : Nat) (s s' : Machine n φ α) : Prop :=
  (∃ now, s'.loc = .body now k) ∨
    k = c.workQueueTask ∧ ∃ now, s.loc = .wqPop now ∧ s'.loc = .wqPark now

theorem left_pos (c : PlannerConfig) (waiting : Nat) (loc : Loc φ α) :
    1 < loc.left c waiting := by
  cases loc with
  | plan pc => cases pc <;> simp [Loc.left, PlanLoc.left]
  | idle pc => cases pc <;> simp [Loc.left, IdleLoc.left]
  | _ => simp only [Loc.left, passLength]; omega

variable {k t : Nat}

theorem left_le {waiting : Nat} (hw : waiting ≤ c.queue.size) (loc : Loc φ α) :
    loc.left c waiting ≤ passLength c + 1 := by
  have hlt := c.workQueueTask_lt
  cases loc with
  | plan pc => cases pc <;> simp only [Loc.left, PlanLoc.left, passLength] <;> omega
  | idle pc => cases pc <;> simp only [Loc.left, IdleLoc.left, passLength] <;> omega
  | _ => simp only [Loc.left, passLength, turnLength]; first | omega | (split <;> omega)

/-- From nowhere is it further than two passes. -/
theorem untilTurn_le (hi : WorkInv c s) : untilTurn c k t s ≤ 2 * (passLength c + 1) := by
  have hleft := left_le hi.consistent.count_le s.loc
  unfold untilTurn
  split <;> omega

/-- A step within the pass comes nearer if less is left of the pass and it still reaches the
turn. -/
theorem untilTurn_lt
    (hleft : s'.loc.left c s'.shared.work.sWorkQueue.workQCount <
      s.loc.left c s.shared.work.sWorkQueue.workQCount)
    (hreach : s.loc.reaches c k t = true → s'.loc.reaches c k t = true) :
    untilTurn c k t s' < untilTurn c k t s := by
  unfold untilTurn
  by_cases hr : s.loc.reaches c k t = true
  · rw [hreach hr, hr]
    exact Nat.add_lt_add_right hleft _
  · rw [if_neg hr]
    split <;> omega

/-- The loop goes on to a task that is active, so it does not pass by one that waits. -/
theorem loop_nearer {now j : Nat} (hw : Awaits c k t s) (hloc : s.loc = .loop now j)
    (h : passStep c s (.loop now j) = some s') : untilTurn c k t s' < untilTurn c k t s := by
  have hrange := hw.inv.inRange
  rw [hloc] at hrange
  have hj : j ≤ c.tasks := hrange
  by_cases htasks : j < c.tasks
  · by_cases hactive : s.active j = true
    · have hs : s' = s.goto (.wakeTest now j) := by simpa [passStep, htasks, hactive] using h.symm
      subst hs
      apply untilTurn_lt
      · simp only [hloc, goto, Loc.left]
        omega
      · rw [hloc]
        exact id
    · have hs : s' = s.goto (.loop now (j + 1)) := by
        simpa [passStep, htasks, hactive] using h.symm
      subst hs
      have hne : j ≠ k := fun e => hactive (e ▸ hw.active)
      apply untilTurn_lt
      · simp only [hloc, goto, Loc.left]
        split_ifs <;> omega
      · simp only [hloc, goto, Loc.reaches, Bool.and_eq_true, decide_eq_true_eq]
        omega
  · have hs : s' = s.goto (.plan .readNow) := by simpa [passStep, htasks] using h.symm
    subst hs
    have hk := hw.task
    apply untilTurn_lt
    · simp only [hloc, goto, Loc.left, PlanLoc.left]
      omega
    · simp only [hloc, Loc.reaches, Bool.and_eq_true, decide_eq_true_eq]
      omega

/-- The test finds a task due that waits. -/
theorem wakeTest_nearer {now j : Nat} (hw : Awaits c k t s) (hloc : s.loc = .wakeTest now j)
    (h : passStep c s (.wakeTest now j) = some s') (harrive : ¬ Arrives c k s s') :
    untilTurn c k t s' < untilTurn c k t s := by
  have hcount := hw.inv.consistent.count_le
  have hnow := hw.inv.reading now (by rw [hloc]; rfl)
  by_cases hdue : notBefore now (s.taskWake c j) = true
  · by_cases hj : j = c.workQueueTask
    · have hs : s' = { s with loc := .wqPop now, ran := true } := by
        simpa [passStep, hj, hj ▸ hdue] using h.symm
      subst hs
      apply untilTurn_lt
      · simp only [hloc, Loc.left, hj, Nat.le_refl, if_true, turnLength]
        omega
      · simp only [hloc, Loc.reaches, hj, Bool.and_eq_true, decide_eq_true_eq, Bool.or_eq_true,
          beq_iff_eq]
        omega
    · have hs : s' = s.goto (.body now j) := by simpa [passStep, hdue, hj] using h.symm
      subst hs
      have hne : j ≠ k := fun e => harrive (.inl ⟨now, by rw [e]; rfl⟩)
      apply untilTurn_lt
      · simp only [hloc, goto, Loc.left]
        split_ifs <;> omega
      · simp only [hloc, goto, Loc.reaches, Bool.and_eq_true, decide_eq_true_eq]
        omega
  · have hs : s' = s.goto (.deadlineTest now j) := by simpa [passStep, hdue] using h.symm
    subst hs
    apply untilTurn_lt
    · simp only [hloc, goto, Loc.left]
      split_ifs <;> omega
    · simp only [hloc, goto, Loc.reaches, Bool.and_eq_true, decide_eq_true_eq]
      rintro ⟨hpast, hle⟩
      have hne : j ≠ k := fun e => hdue (e ▸ hw.due now hpast hnow)
      omega

/-- The turn of the work queue task ends with an empty queue. -/
theorem wqPop_nearer {now : Nat} (hw : Awaits c k t s) (hloc : s.loc = .wqPop now)
    (h : passStep c s (.wqPop now) = some s') (harrive : ¬ Arrives c k s s') :
    untilTurn c k t s' < untilTurn c k t s := by
  obtain ⟨-, rfl⟩ | ⟨item, q, -, hitems, hs⟩ := wqPop_cases hw.inv.consistent h
  · have hne : k ≠ c.workQueueTask := fun e => harrive (.inr ⟨e, now, hloc, rfl⟩)
    apply untilTurn_lt
    · simp only [hloc, goto, Loc.left]
      omega
    · simp [hloc, goto, Loc.reaches, hne]
  · have hcount : s.shared.work.sWorkQueue.workQCount = q.workQCount + 1 := by
      rw [← WorkQueue.items_length c.queue, hitems, List.length_cons, WorkQueue.items_length]
    obtain rfl | rfl := hs
    · apply untilTurn_lt
      · simp only [hloc, goto, withQueue, onShared, Loc.left, hcount]
        omega
      · rw [hloc]
        exact id
    · apply untilTurn_lt
      · simp only [hloc, withQueue, onShared, Loc.left, hcount]
        omega
      · rw [hloc]
        exact id

/-- A statement of the pass brings the turn of a task that waits nearer, or is its start. -/
theorem passStep_nearer (hw : Awaits c k t s) (h : passStep c s s.loc = some s')
    (harrive : ¬ Arrives c k s s') : untilTurn c k t s' < untilTurn c k t s := by
  have hrange := hw.inv.inRange
  cases hloc : s.loc with
  | boot =>
    rw [hloc] at h
    cases h
    exact untilTurn_lt (by rw [hloc]; exact Nat.lt_succ_self _) fun _ => rfl
  | readNow =>
    rw [hloc] at h
    cases h
    have hclock := hw.inv.clock
    have hnow : tlkMtimerGetMtime s.shared = s.shared.mtime := u64_of_lt (by omega)
    refine untilTurn_lt ?_ fun _ => ?_
    · simp only [hloc, Loc.left, passLength]
      omega
    · simpa [Loc.reaches, hnow] using hw.past
  | resetDeadline now =>
    rw [hloc] at h
    cases h
    refine untilTurn_lt ?_ ?_
    · simp only [hloc, goto, onShared, Loc.left, passLength, Nat.zero_le, if_true, Nat.sub_zero]
      omega
    · simp [hloc, goto, Loc.reaches]
  | loop now j => rw [hloc] at h; exact loop_nearer hw hloc h
  | wakeTest now j => rw [hloc] at h; exact wakeTest_nearer hw hloc h harrive
  | wqPop now => rw [hloc] at h; exact wqPop_nearer hw hloc h harrive
  | wqPark now =>
    rw [hloc] at h
    cases h
    refine untilTurn_lt ?_ ?_
    · simp only [hloc, goto, onShared, Loc.left, Nat.lt_irrefl, if_false]
      omega
    · rw [hloc]
      exact id
  | deadlineTest now j =>
    rw [hloc] at h hrange
    have hj : j < c.tasks := hrange
    cases h
    by_cases hset : s.taskWake c j < s.shared.taskNextDeadline
    · rw [if_pos hset]
      refine untilTurn_lt ?_ ?_
      · simp only [hloc, goto, Loc.left]
        omega
      · rw [hloc]
        exact id
    · rw [if_neg hset]
      refine untilTurn_lt ?_ ?_
      · simp only [hloc, goto, Loc.left, Nat.succ_le_iff]
        omega
      · simp only [hloc, goto, Loc.reaches, Nat.succ_le_iff]
        exact id
  | deadlineSet now j =>
    rw [hloc] at h hrange
    have hj : j < c.tasks := hrange
    cases h
    refine untilTurn_lt ?_ ?_
    · simp only [hloc, goto, onShared, Loc.left, Nat.succ_le_iff]
      omega
    · simp only [hloc, goto, onShared, Loc.reaches, Nat.succ_le_iff]
      exact id
  | plan pc =>
    rw [hloc] at h
    cases h
    refine untilTurn_lt ?_ ?_
    · rw [hloc]
      cases pc <;> simp [planStep, goto, onShared, Loc.left, PlanLoc.left, IdleLoc.left]
    · simp [hloc, Loc.reaches]
  | body now j => rw [hloc] at h; cases h
  | wqBody now item => rw [hloc] at h; cases h
  | idle pc => rw [hloc] at h; cases h

/-- A return goes on with the pass. -/
theorem bodyReturn_nearer (h : bodyReturn s = some s') :
    untilTurn c k t s' < untilTurn c k t s := by
  unfold bodyReturn at h
  split at h
  · next now j hloc =>
    cases h
    refine untilTurn_lt ?_ ?_
    · simp only [hloc, goto, Loc.left]
      omega
    · rw [hloc]
      exact id
  · next now item hloc =>
    cases h
    refine untilTurn_lt ?_ ?_
    · simp only [hloc, Loc.left]
      omega
    · rw [hloc]
      exact id
  · cases h

/-- The idle function goes on, or returns and the next pass begins. -/
theorem idleStep_left {pc : IdleLoc} {a : Action n φ α} (h : idleStep c s pc a = some s') :
    s'.loc = .readNow ∨ ∃ pc', s'.loc = .idle pc' ∧ pc'.left < pc.left := by
  unfold idleStep at h
  split at h
  · cases h; exact .inr ⟨_, rfl, by simp [IdleLoc.left]⟩
  · cases h; exact .inr ⟨_, rfl, by simp [IdleLoc.left]⟩
  · cases h
    dsimp only [goto]
    split
    · exact .inr ⟨_, rfl, by simp [IdleLoc.left]⟩
    · exact .inl rfl
  · cases h
    dsimp only [goto]
    split
    · exact .inl rfl
    · split
      · exact .inr ⟨_, rfl, by simp [IdleLoc.left]⟩
      · exact .inr ⟨_, rfl, by simp [IdleLoc.left]⟩
  · cases h; exact .inr ⟨_, rfl, by simp [IdleLoc.left]⟩
  · cases h; exact .inr ⟨_, rfl, by simp [IdleLoc.left]⟩
  · cases h
    dsimp only [goto]
    split
    · exact .inr ⟨_, rfl, by simp [IdleLoc.left]⟩
    · exact .inr ⟨_, rfl, by simp [IdleLoc.left]⟩
  · cases h; exact .inl rfl
  · cases h; exact .inl rfl
  · cases h

theorem idleStep_nearer {pc : IdleLoc} {a : Action n φ α} (hloc : s.loc = .idle pc)
    (h : idleStep c s pc a = some s') : untilTurn c k t s' < untilTurn c k t s := by
  rcases idleStep_left h with hs' | ⟨pc', hs', hlt⟩
  · -- the next pass is one that reaches the turn
    have hpos := left_pos c s.shared.work.sWorkQueue.workQCount s.loc
    have hnot : s.loc.reaches c k t = false := by rw [hloc]; rfl
    rw [untilTurn, untilTurn, hs', hnot]
    simp only [Loc.left, Loc.reaches, if_true, Bool.false_eq_true, if_false]
    omega
  · refine untilTurn_lt ?_ ?_
    · rw [hloc, hs']
      exact hlt
    · simp [hloc, Loc.reaches]

theorem own_cases {a : Action n φ α} (h : machineStep c s a = some s') (ha : a.own = true) :
    bodyReturn s = some s' ∨ (∃ pc, s.loc = .idle pc ∧ idleStep c s pc a = some s') ∨
      passStep c s s.loc = some s' := by
  cases a with
  | tick d => cases ha
  | isr call => cases ha
  | msi => cases ha
  | call call => cases ha
  | setWake j wake => cases ha
  | setActive j active => cases ha
  | ret => exact .inl h
  | sleep ok =>
    simp only [machineStep] at h
    split at h
    · next pc hloc => exact .inr (.inl ⟨pc, hloc, h⟩)
    · cases h
  | stimer tick =>
    simp only [machineStep] at h
    split at h
    · next pc hloc => exact .inr (.inl ⟨pc, hloc, h⟩)
    · cases h
  | step =>
    simp only [machineStep] at h
    split at h
    · next pc hloc => exact .inr (.inl ⟨pc, hloc, h⟩)
    · exact .inr (.inr h)

/-- What is not a step of the task context leaves it where it is. -/
theorem foreign_cases {a : Action n φ α} (h : machineStep c s a = some s') (ha : a.own = false) :
    s'.loc = s.loc ∧ (External c.queue s.shared s'.shared ∨ s'.shared = s.shared) := by
  cases a with
  | tick d => cases h; exact ⟨rfl, .inl (.call (.tick d) s.shared)⟩
  | isr call => cases h; exact ⟨rfl, .inl (.call call s.shared)⟩
  | msi => cases h; exact ⟨rfl, .inl (.msi s.shared)⟩
  | call call =>
    simp only [machineStep] at h
    split at h
    · cases h; exact ⟨rfl, .inl (.call call s.shared)⟩
    · cases h
  | setWake j wake =>
    simp only [machineStep] at h
    split at h
    · cases h; exact ⟨rfl, .inr rfl⟩
    · cases h
  | setActive j active =>
    simp only [machineStep] at h
    split at h
    · cases h; exact ⟨rfl, .inr rfl⟩
    · cases h
  | ret => cases ha
  | sleep ok => cases ha
  | stimer tick => cases ha
  | step => cases ha

/-- Own steps come nearer, and the others do not go away as long as they accept no work. -/
theorem machineStep_nearer {a : Action n φ α} (hw : Awaits c k t s)
    (h : machineStep c s a = some s') (hkept : s'.shared.accepted = s.shared.accepted)
    (harrive : ¬ Arrives c k s s') :
    untilTurn c k t s' + (if a.own then 1 else 0) ≤ untilTurn c k t s := by
  cases ha : a.own with
  | true =>
    rw [if_pos rfl]
    rcases own_cases h ha with hret | ⟨pc, hloc, hidle⟩ | hpass
    · exact bodyReturn_nearer hret
    · exact idleStep_nearer hloc hidle
    · exact passStep_nearer hw hpass harrive
  | false =>
    obtain ⟨hloc, hshared⟩ := foreign_cases h ha
    have hcount : s'.shared.work.sWorkQueue.workQCount = s.shared.work.sWorkQueue.workQCount := by
      rcases hshared with hext | hsame
      · obtain ⟨extra, hacc⟩ := hext.serves hw.inv.consistent
        have hnil : extra = [] := by
          rw [hacc.accepted] at hkept
          exact List.append_right_eq_self.mp hkept
        rw [← WorkQueue.items_length c.queue, hacc.items, hnil, List.append_nil,
          WorkQueue.items_length]
      · rw [hsame]
    rw [untilTurn, untilTurn, hloc, hcount]
    exact Nat.le_refl _

/-! ## Responses -/

/-- What the task context does next, where bodies return at once, no sleep succeeds and the system
timer stands still. -/
def Loc.ownAction : Loc φ α → Action n φ α
  | .body .. | .wqBody .. => .ret
  | .idle (.pmTick ..) | .idle (.pmSetMtime ..) => .stimer 0
  | .idle (.pmSleep ..) => .sleep false
  | _ => .step

/-- The task context always has a next step. -/
theorem own_enabled (c : PlannerConfig) (s : Machine n φ α) :
    (s.loc.ownAction : Action n φ α).own = true ∧
      (machineStep c s s.loc.ownAction).isSome = true := by
  cases hloc : s.loc with
  | boot | readNow | resetDeadline now | loop now k | wakeTest now k | wqPark now
  | deadlineTest now k | deadlineSet now k | plan pc =>
    exact ⟨rfl, by simp [Loc.ownAction, machineStep, hloc, passStep]⟩
  | wqPop now =>
    refine ⟨rfl, ?_⟩
    simp only [Loc.ownAction, machineStep, hloc, passStep]
    split
    · rfl
    · split <;> rfl
  | body now k | wqBody now item =>
    exact ⟨rfl, by simp [Loc.ownAction, machineStep, bodyReturn, hloc]⟩
  | idle pc =>
    cases pc <;> exact ⟨rfl, by simp [Loc.ownAction, machineStep, hloc, idleStep]⟩

/-- The next `count` actions of the task context on its own. -/
def ownActions (c : PlannerConfig) : Nat → Machine n φ α → List (Action n φ α)
  | 0, _ => []
  | count + 1, s =>
    s.loc.ownAction :: ((machineStep c s s.loc.ownAction).elim [] (ownActions c count))

theorem countP_ownActions (c : PlannerConfig) :
    ∀ (count : Nat) (s : Machine n φ α), (ownActions c count s).countP Action.own = count := by
  intro count
  induction count with
  | zero => exact fun _ => rfl
  | succ count ih =>
    intro s
    obtain ⟨hown, hsome⟩ := own_enabled c s
    obtain ⟨u, hu⟩ := Option.isSome_iff_exists.mp hsome
    rw [ownActions, hu, List.countP_cons_of_pos hown]
    exact congrArg (· + 1) (ih u)

/-- Accepted work that is not executed waits for the work queue task. -/
theorem WorkInv.awaits (hi : WorkInv c s) : Awaits c c.workQueueTask s.shared.acceptedAt s where
  inv := hi
  past := hi.accepted_past
  active := hi.active
  due := by
    intro now hpast hnow
    have hwake : s.taskWake c c.workQueueTask = s.shared.work.wake := if_pos rfl
    rw [hwake]
    rcases hi.wake with hmax | hle
    · rw [hmax]
      exact notBefore_max hnow
    · exact (notBefore_iff (by omega) (by omega)).mpr (Nat.le_trans hle hpast)
  task := c.workQueueTask_lt

/-- As long as no work is accepted, the work queue task is parked at most. -/
theorem wake_kept {a : Action n φ α} (hi : WorkInv c s) (h : machineStep c s a = some s')
    (hkept : s'.shared.accepted = s.shared.accepted) :
    s'.shared.work.wake = UINT64_MAX ∨ s'.shared.work.wake = s.shared.work.wake := by
  cases ha : a.own with
  | true =>
    rcases own_cases h ha with hret | ⟨pc, hloc, hidle⟩ | hpass
    · unfold bodyReturn at hret
      split at hret
      · cases hret; exact .inr rfl
      · cases hret; exact .inr rfl
      · cases hret
    · obtain ⟨loc, mtime, rfl, -⟩ := idleStep_cases hidle
      exact .inr rfl
    · by_cases hpop : ∃ now, s.loc = .wqPop now
      · obtain ⟨now, hloc⟩ := hpop
        rw [hloc] at hpass
        obtain ⟨-, rfl⟩ | ⟨item, q, -, -, rfl | rfl⟩ := wqPop_cases hi.consistent hpass
        · exact .inr rfl
        · exact .inr rfl
        · exact .inr rfl
      · exact (passStep_workFrame hpass (not_exists.mp hpop)).wake
  | false =>
    rcases (foreign_cases h ha).2 with hext | hsame
    · obtain ⟨extra, hacc⟩ := hext.serves hi.consistent
      have hnil : extra = [] := by
        rw [hacc.accepted] at hkept
        exact List.append_right_eq_self.mp hkept
      exact .inr (hacc.idle hnil).2
    · rw [hsame]
      exact .inr rfl

/-- What a run leaves alone while work or task `k` waits. -/
structure KeepsTask (c : PlannerConfig) (k : Nat) (s s' : Machine n φ α) : Prop where
  clock : ClockOk s s'
  accepted : s'.shared.accepted = s.shared.accepted
  task : k ≠ c.workQueueTask → s'.active k = s.active k ∧ s'.wake k = s.wake k

instance [DecidableEq φ] [DecidableEq α] (c : PlannerConfig) (k : Nat) (s s' : Machine n φ α) :
    Decidable (KeepsTask c k s s') :=
  decidable_of_iff (ClockOk s s' ∧ s'.shared.accepted = s.shared.accepted ∧
      (k ≠ c.workQueueTask → s'.active k = s.active k ∧ s'.wake k = s.wake k))
    ⟨fun h => ⟨h.1, h.2.1, h.2.2⟩, fun h => ⟨h.clock, h.accepted, h.task⟩⟩

theorem awaits_step {a : Action n φ α} (hw : Awaits c k t s) (h : machineStep c s a = some s')
    (hu : KeepsTask c k s s') : Awaits c k t s' := by
  have hinv := machineStep_workInv h hu.clock hw.inv
  refine ⟨hinv, Nat.le_trans hw.past hu.clock.1, ?_, fun now hpast hnow => ?_, hw.task⟩
  · by_cases hk : k = c.workQueueTask
    · rw [hk]
      exact hinv.active
    · rw [(hu.task hk).1]
      exact hw.active
  · have hold := hw.due now hpast hnow
    by_cases hk : k = c.workQueueTask
    · rw [taskWake, if_pos hk] at hold ⊢
      rcases wake_kept hw.inv h hu.accepted with hmax | hsame
      · rw [hmax]
        exact notBefore_max hnow
      · rw [hsame]
        exact hold
    · rw [taskWake, if_neg hk] at hold ⊢
      rw [(hu.task hk).2]
      exact hold

/-- The turn that is waited for comes within two passes. -/
theorem Awaits.responds {ok : Machine n φ α → Action n φ α → Machine n φ α → Prop}
    {acts : List (Action n φ α)} (hok : ∀ s a s', ok s a s' → KeepsTask c k s s')
    (run : Run (machineStep c) ok s acts s') (hw : Awaits c k t s)
    (hlong : 2 * (passLength c + 1) < acts.countP Action.own) :
    ∃ before a after r u, acts = before ++ a :: after ∧ Run (machineStep c) ok s before r ∧
      machineStep c r a = some u ∧ ok r a u ∧ Awaits c k t r ∧ Arrives c k r u := by
  refine run.responds (untilTurn c k t) hw (fun s a s' hstep hs hw => ?_)
    (Nat.lt_of_le_of_lt (untilTurn_le hw.inv) hlong)
  have hu := hok s a s' hs
  by_cases harrive : Arrives c k s s'
  · exact .inl harrive
  · exact .inr ⟨awaits_step hw hstep hu, machineStep_nearer hw hstep hu.accepted harrive⟩

/-- Only the pop itself ends the turn of the work queue task. -/
theorem passStep_of_pop {a : Action n φ α} {now now' : Nat} (h : machineStep c s a = some s')
    (hloc : s.loc = .wqPop now) (hpark : s'.loc = .wqPark now') :
    passStep c s s.loc = some s' := by
  cases ha : a.own with
  | true =>
    rcases own_cases h ha with hret | ⟨pc, hidle, -⟩ | hpass
    · simp [bodyReturn, hloc] at hret
    · rw [hloc] at hidle
      cases hidle
    · exact hpass
  | false =>
    have hsame := (foreign_cases h ha).1
    rw [hloc, hpark] at hsame
    cases hsame

end UniSdk.Planner
