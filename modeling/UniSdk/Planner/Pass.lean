import UniSdk.Planner.Machine

/-!
# Does a pass serve the work that was queued when it began?

A pass reads the clock once and runs the work queue task if its wake time has come by that
reading. A submit that is accepted after the reading, and before the test, writes a wake time
that may lie behind it, and then the pass skips work that was queued long before. Apart from
such a submit every pass runs the work queue task and executes all that was queued at the
reading; parking is harmless, since the parked wake time counts as elapsed.
-/

namespace UniSdk.Planner

open Library.Words Library.Runs Machine

variable {n : Nat} {φ α : Type}

/-- Where a pass is, seen from the work queue task's turn in it. -/
inductive Phase
  | before (now : Nat)
  | during
  | after

/-- The turn of the work queue task ends with the failed pop, or with the test that skips it. -/
def Loc.phase (c : PlannerConfig) : Loc φ α → Phase
  | .resetDeadline now => .before now
  | .loop now k | .wakeTest now k => if k ≤ c.workQueueTask then .before now else .after
  | .body now k | .deadlineTest now k | .deadlineSet now k =>
    if k < c.workQueueTask then .before now else .after
  | .wqPop _ | .wqBody .. => .during
  | .boot | .readNow | .wqPark _ | .plan _ | .idle _ => .after

/-- The pass has the work queue task's turn behind it. -/
def Loc.pastWorkQueueTask (c : PlannerConfig) (loc : Loc φ α) : Bool :=
  match loc.phase c with
  | .after => true
  | _ => false

/-- The item whose function is running. -/
def Loc.inFlight : Loc φ α → List (WorkItem φ α)
  | .wqBody _ item => [item]
  | _ => []

/-- The clock does not go back and stays below the sign bit's reach. -/
abbrev ClockOk (s s' : Machine n φ α) : Prop :=
  s.shared.mtime ≤ s'.shared.mtime ∧ s'.shared.mtime < 2 ^ 63 - 1

/-- A submit is accepted at a time later than the clock value the pass goes by, after the pass
has read it and before the work queue task's turn, in a pass that began with accepted work. -/
def lateSubmit (c : PlannerConfig) (s s' : Machine n φ α) : Bool :=
  match s.loc.phase c with
  | .before now =>
    decide (0 < s.snapshot) && s'.shared.accepted.length != s.shared.accepted.length &&
      decide (now < s'.shared.acceptedAt)
  | _ => false

/-- What the pass has achieved for the items that were accepted when it began. -/
def Achieved (s : Machine n φ α) : Phase → Prop
  | .before now => now < 2 ^ 63 - 1 ∧ s.snapshot ≤ s.shared.accepted.length ∧
      (0 < s.snapshot → s.shared.acceptedAt ≤ now)
  | .during => s.ran = true ∧ s.snapshot ≤ s.shared.accepted.length
  | .after => 0 < s.snapshot → s.ran = true ∧ s.snapshot ≤ s.executed.length

structure PassInv (c : PlannerConfig) (s : Machine n φ α) : Prop where
  consistent : s.shared.work.sWorkQueue.Consistent c.queue
  active : s.active c.workQueueTask = true
  accounts : s.shared.accepted =
    s.executed ++ s.loc.inFlight ++ s.shared.work.sWorkQueue.items c.queue
  clock : s.shared.mtime < 2 ^ 63 - 1
  accepted_past : s.shared.acceptedAt ≤ s.shared.mtime
  wake : s.shared.work.wake = UINT64_MAX ∨ s.shared.work.wake ≤ s.shared.acceptedAt
  achieved : Achieved s (s.loc.phase c)

variable {c : PlannerConfig} {s s' : Machine n φ α}

/-- A statement that leaves the queue and the history alone has only to say what it achieves. -/
theorem PassInv.frame (hi : PassInv c s) (hclock : ClockOk s s')
    (hqueue : s'.shared.work.sWorkQueue = s.shared.work.sWorkQueue)
    (hwake : s'.shared.work.wake = UINT64_MAX ∨ s'.shared.work.wake = s.shared.work.wake)
    (haccepted : s'.shared.accepted = s.shared.accepted)
    (hat : s'.shared.acceptedAt = s.shared.acceptedAt)
    (hactive : s'.active c.workQueueTask = s.active c.workQueueTask)
    (hexecuted : s'.executed ++ s'.loc.inFlight = s.executed ++ s.loc.inFlight)
    (hachieved : Achieved s' (s'.loc.phase c)) : PassInv c s' where
  consistent := by rw [hqueue]; exact hi.consistent
  active := by rw [hactive]; exact hi.active
  accounts := by rw [haccepted, hqueue, hexecuted]; exact hi.accounts
  clock := hclock.2
  accepted_past := by rw [hat]; exact Nat.le_trans hi.accepted_past hclock.1
  wake := by
    rw [hat]
    rcases hwake with hmax | hsame
    · exact .inl hmax
    · rw [hsame]; exact hi.wake
  achieved := hachieved

/-- A call keeps the invariant unless it is a late submit. -/
theorem PassInv.serve {shared : PlannerState n φ α} (hi : PassInv c s)
    (hserves : Serves c.queue s.shared shared) (hclock : ClockOk s { s with shared })
    (hlate : lateSubmit c s { s with shared } = false) : PassInv c { s with shared } := by
  obtain ⟨extra, hacc⟩ := hserves hi.consistent
  have hlen : shared.accepted.length = s.shared.accepted.length + extra.length := by
    rw [hacc.accepted, List.length_append]
  refine ⟨hacc.consistent, hi.active, ?_, hclock.2, ?_, ?_, ?_⟩
  · dsimp only
    rw [hacc.accepted, hacc.items, hi.accounts, List.append_assoc]
  · by_cases he : extra = []
    · rw [(hacc.idle he).1]
      exact Nat.le_trans hi.accepted_past hclock.1
    · obtain ⟨-, t, ht, hat⟩ := hacc.woken he
      have hbound := hclock.2
      dsimp only at hbound ⊢
      rw [hat, u64_of_lt (by omega)]
      exact ht
  · by_cases he : extra = []
    · rw [(hacc.idle he).1, (hacc.idle he).2]
      exact hi.wake
    · exact .inr (Nat.le_of_eq (hacc.woken he).1)
  · have hold := hi.achieved
    unfold lateSubmit at hlate
    dsimp only
    cases hphase : s.loc.phase c with
    | before now =>
      rw [hphase] at hold hlate
      obtain ⟨hnow, hsnap, hpast⟩ := hold
      refine ⟨hnow, Nat.le_trans hsnap (by dsimp only; omega), fun hpos => ?_⟩
      by_cases he : extra = []
      · dsimp only
        rw [(hacc.idle he).1]
        exact hpast hpos
      · have hne : shared.accepted.length ≠ s.shared.accepted.length := by
          have := List.length_pos_of_ne_nil he
          omega
        have hpos' : 0 < s.snapshot := hpos
        simp only [hpos', hne, decide_true, Bool.true_and, bne_iff_ne, ne_eq, not_false_eq_true,
          decide_eq_false_iff_not, Nat.not_lt, Bool.and_eq_false_imp, forall_const] at hlate
        exact hlate
    | during =>
      rw [hphase] at hold
      exact ⟨hold.1, Nat.le_trans hold.2 (by dsimp only; omega)⟩
    | after =>
      rw [hphase] at hold
      exact hold

theorem PassInv.ret (hi : PassInv c s) (hclock : ClockOk s s') (h : bodyReturn s = some s') :
    PassInv c s' := by
  have hold := hi.achieved
  unfold bodyReturn at h
  split at h
  · next now k hloc =>
    cases h
    rw [hloc] at hold
    exact hi.frame hclock rfl (.inr rfl) rfl rfl rfl (by rw [hloc]; rfl) hold
  · next now item hloc =>
    cases h
    rw [hloc] at hold
    exact hi.frame hclock rfl (.inr rfl) rfl rfl rfl (by rw [hloc]; exact List.append_nil _) hold
  · cases h

theorem PassInv.idle {pc : IdleLoc} {a : Action n φ α} (hi : PassInv c s) (hclock : ClockOk s s')
    (hloc : s.loc = .idle pc) (h : idleStep c s pc a = some s') : PassInv c s' := by
  have hold : Achieved s .after := by
    have := hi.achieved
    rw [hloc] at this
    exact this
  have hflight : s.loc.inFlight = [] := by rw [hloc]; rfl
  obtain ⟨loc, mtime, rfl, hnext⟩ := idleStep_cases h
  have hnext' : loc.inFlight = [] ∧ loc.phase c = .after := by
    obtain rfl | ⟨pc', rfl⟩ := hnext
    · exact ⟨rfl, rfl⟩
    · exact ⟨rfl, rfl⟩
  refine hi.frame hclock rfl (.inr rfl) rfl rfl rfl ?_ ?_
  · rw [hflight]
    exact congrArg _ hnext'.1
  · dsimp only
    rw [hnext'.2]
    exact hold

/-- Accepted work is due by a clock value read after it was accepted. -/
theorem PassInv.due (hi : PassInv c s) {now : Nat} (hnow : now < 2 ^ 63 - 1)
    (hpast : s.shared.acceptedAt ≤ now) : notBefore now s.shared.work.wake = true := by
  rcases hi.wake with hmax | hle
  · rw [hmax]
    exact notBefore_max hnow
  · exact (notBefore_iff (by omega) (by omega)).mpr (Nat.le_trans hle hpast)

theorem PassInv.loop {now k : Nat} (hi : PassInv c s) (hclock : ClockOk s s')
    (hloc : s.loc = .loop now k) (h : passStep c s (.loop now k) = some s') : PassInv c s' := by
  have hold : Achieved s (if k ≤ c.workQueueTask then .before now else .after) := by
    have := hi.achieved
    rw [hloc] at this
    exact this
  have hflight : s.loc.inFlight = [] := by rw [hloc]; rfl
  by_cases htasks : k < c.tasks
  · by_cases hactive : s.active k = true
    · have hs : s' = s.goto (.wakeTest now k) := by simpa [passStep, htasks, hactive] using h.symm
      subst hs
      exact hi.frame hclock rfl (.inr rfl) rfl rfl rfl (by rw [hflight]; rfl) hold
    · have hs : s' = s.goto (.loop now (k + 1)) := by
        simpa [passStep, htasks, hactive] using h.symm
      subst hs
      refine hi.frame hclock rfl (.inr rfl) rfl rfl rfl (by rw [hflight]; rfl) ?_
      have hne : k ≠ c.workQueueTask := fun e => hactive (e ▸ hi.active)
      have hiff : k + 1 ≤ c.workQueueTask ↔ k ≤ c.workQueueTask := by omega
      show Achieved s (if k + 1 ≤ c.workQueueTask then .before now else .after)
      simp only [hiff]
      exact hold
  · have hs : s' = s.goto (.plan .readNow) := by simpa [passStep, htasks] using h.symm
    subst hs
    have hlt := c.workQueueTask_lt
    rw [if_neg (by omega)] at hold
    exact hi.frame hclock rfl (.inr rfl) rfl rfl rfl (by rw [hflight]; rfl) hold

theorem PassInv.wakeTest {now k : Nat} (hi : PassInv c s) (hclock : ClockOk s s')
    (hloc : s.loc = .wakeTest now k) (h : passStep c s (.wakeTest now k) = some s') :
    PassInv c s' := by
  have hold : Achieved s (if k ≤ c.workQueueTask then .before now else .after) := by
    have := hi.achieved
    rw [hloc] at this
    exact this
  have hflight : s.loc.inFlight = [] := by rw [hloc]; rfl
  by_cases hk : k = c.workQueueTask
  · subst hk
    rw [if_pos (Nat.le_refl _)] at hold
    obtain ⟨hnow, hsnap, hpast⟩ := hold
    have hwake : s.taskWake c c.workQueueTask = s.shared.work.wake := if_pos rfl
    by_cases hdue : notBefore now s.shared.work.wake = true
    · have hs : s' = { s with loc := .wqPop now, ran := true } := by
        simpa [passStep, hwake, hdue] using h.symm
      subst hs
      exact hi.frame hclock rfl (.inr rfl) rfl rfl rfl (by rw [hflight]; rfl) ⟨rfl, hsnap⟩
    · have hs : s' = s.goto (.deadlineTest now c.workQueueTask) := by
        simpa [passStep, hwake, hdue] using h.symm
      subst hs
      refine hi.frame hclock rfl (.inr rfl) rfl rfl rfl (by rw [hflight]; rfl) ?_
      show Achieved s (if c.workQueueTask < c.workQueueTask then .before now else .after)
      rw [if_neg (Nat.lt_irrefl _)]
      exact fun hpos => absurd (hi.due hnow (hpast hpos)) hdue
  · have hiff : k ≤ c.workQueueTask ↔ k < c.workQueueTask := by omega
    simp only [hiff] at hold
    by_cases hdue : notBefore now (s.taskWake c k) = true
    · have hs : s' = s.goto (.body now k) := by simpa [passStep, hdue, hk] using h.symm
      subst hs
      exact hi.frame hclock rfl (.inr rfl) rfl rfl rfl (by rw [hflight]; rfl) hold
    · have hs : s' = s.goto (.deadlineTest now k) := by simpa [passStep, hdue] using h.symm
      subst hs
      exact hi.frame hclock rfl (.inr rfl) rfl rfl rfl (by rw [hflight]; rfl) hold

/-- The turn of the work queue task ends when everything accepted has been executed. -/
theorem PassInv.wqPop {now : Nat} (hi : PassInv c s) (hclock : ClockOk s s')
    (hloc : s.loc = .wqPop now) (h : passStep c s (.wqPop now) = some s') : PassInv c s' := by
  have hold : Achieved s .during := by
    have := hi.achieved
    rw [hloc] at this
    exact this
  have hflight : s.loc.inFlight = [] := by rw [hloc]; rfl
  have haccounts := hi.accounts
  rw [hflight, List.append_nil] at haccounts
  obtain ⟨hempty, rfl⟩ | ⟨item, q, hq, hitems, hs⟩ := wqPop_cases hi.consistent h
  · refine hi.frame hclock rfl (.inr rfl) rfl rfl rfl (by rw [hflight]; rfl) fun _ => ?_
    rw [hempty, List.append_nil] at haccounts
    refine ⟨hold.1, ?_⟩
    have hsnap := hold.2
    rw [haccounts] at hsnap
    exact hsnap
  · rw [hitems, List.append_cons] at haccounts
    obtain rfl | rfl := hs
    · exact ⟨hq, hi.active, haccounts, hi.clock, hi.accepted_past, hi.wake, hold⟩
    · refine ⟨hq, hi.active, ?_, hi.clock, hi.accepted_past, hi.wake, hold⟩
      show s.shared.accepted = s.executed ++ [item] ++ [] ++ q.items c.queue
      rw [haccounts, List.append_nil]

theorem PassInv.pass (hi : PassInv c s) (hclock : ClockOk s s')
    (h : passStep c s s.loc = some s') : PassInv c s' := by
  have hold := hi.achieved
  cases hloc : s.loc with
  | boot =>
    rw [hloc] at h hold
    cases h
    exact hi.frame hclock rfl (.inr rfl) rfl rfl rfl (by rw [hloc]; rfl) hold
  | readNow =>
    rw [hloc] at h
    cases h
    have hbound := hi.clock
    have hnow : tlkMtimerGetMtime s.shared = s.shared.mtime := u64_of_lt (by omega)
    refine hi.frame hclock rfl (.inr rfl) rfl rfl rfl (by rw [hloc]; rfl)
      ⟨?_, Nat.le_refl _, fun _ => ?_⟩
    · rw [hnow]; exact hi.clock
    · rw [hnow]; exact hi.accepted_past
  | resetDeadline now =>
    rw [hloc] at h hold
    cases h
    refine hi.frame hclock rfl (.inr rfl) rfl rfl rfl (by rw [hloc]; rfl) ?_
    show Achieved _ (if 0 ≤ c.workQueueTask then Phase.before now else Phase.after)
    rw [if_pos (Nat.zero_le _)]
    exact hold
  | loop now k => rw [hloc] at h; exact hi.loop hclock hloc h
  | wakeTest now k => rw [hloc] at h; exact hi.wakeTest hclock hloc h
  | wqPop now => rw [hloc] at h; exact hi.wqPop hclock hloc h
  | wqPark now =>
    rw [hloc] at h hold
    cases h
    refine hi.frame hclock rfl (.inl rfl) rfl rfl rfl (by rw [hloc]; rfl) ?_
    show Achieved _ (if c.workQueueTask < c.workQueueTask then Phase.before now else Phase.after)
    rw [if_neg (Nat.lt_irrefl _)]
    exact hold
  | deadlineTest now k =>
    rw [hloc] at h hold
    cases h
    refine hi.frame hclock rfl (.inr rfl) rfl rfl rfl ?_ ?_
    · rw [hloc]; dsimp only [goto]; split <;> rfl
    · dsimp only [goto]; split <;> exact hold
  | deadlineSet now k =>
    rw [hloc] at h hold
    cases h
    exact hi.frame hclock rfl (.inr rfl) rfl rfl rfl (by rw [hloc]; rfl) hold
  | plan pc =>
    rw [hloc] at h hold
    cases h
    obtain ⟨shared, loc, hs, hqueue, hwake, haccepted, hat, hnext⟩ := planStep_cases s pc
    have hnext' : loc.inFlight = [] ∧ loc.phase c = .after := by
      obtain ⟨pc', rfl⟩ | rfl := hnext
      · exact ⟨rfl, rfl⟩
      · exact ⟨rfl, rfl⟩
    rw [hs] at hclock ⊢
    refine hi.frame hclock hqueue (.inr hwake) haccepted hat rfl ?_ ?_
    · rw [hloc]
      exact congrArg _ hnext'.1
    · dsimp only
      rw [hnext'.2]
      exact hold
  | body now k => rw [hloc] at h; cases h
  | wqBody now item => rw [hloc] at h; cases h
  | idle pc => rw [hloc] at h; cases h

theorem machineStep_passInv {a : Action n φ α} (h : machineStep c s a = some s')
    (hclock : ClockOk s s') (hlate : lateSubmit c s s' = false) (hi : PassInv c s) :
    PassInv c s' := by
  obtain ⟨shared, rfl, hext⟩ | ⟨-, wake, active, rfl, hactive⟩ | hret | ⟨pc, hloc, hidle⟩ |
    ⟨-, hpass⟩ := machineStep_cases h
  · exact hi.serve hext.serves hclock hlate
  · exact hi.frame hclock rfl (.inr rfl) rfl rfl hactive rfl hi.achieved
  · exact hi.ret hclock hret
  · exact hi.idle hclock hloc hidle
  · exact hi.pass hclock hpass

theorem load_passInv [Inhabited α] (c : PlannerConfig) (b : BootValues n) (active : Nat → Bool)
    (hb : b.mtime < 2 ^ 63 - 1) : PassInv c (.load c b active : Machine n φ α) where
  consistent := WorkQueue.init_consistent c.queue
  active := Function.update_self ..
  accounts := rfl
  clock := hb
  accepted_past := Nat.zero_le _
  wake := .inr (Nat.le_refl _)
  achieved := fun hpos => absurd hpos (Nat.lt_irrefl _)

/-- In every run in which the clock does not go back and no submit is late, a pass that began
with accepted work has run the work queue task when its turn is over, and everything accepted
before the pass read the clock has been executed by then, in order. -/
theorem pass_executes_queued [Inhabited α] (c : PlannerConfig) (b : BootValues n)
    (active : Nat → Bool) (acts : List (Action n φ α)) (s : Machine n φ α)
    (hb : b.mtime < 2 ^ 63 - 1)
    (run : Run (machineStep c) (fun s _ s' => ClockOk s s' ∧ lateSubmit c s s' = false)
      (.load c b active) acts s)
    (hpast : s.loc.pastWorkQueueTask c = true) (hsnap : 0 < s.snapshot) :
    s.ran = true ∧ s.shared.accepted.take s.snapshot <+: s.executed := by
  have hinv := run.invariant (P := PassInv c) (load_passInv c b active hb)
    fun _ _ _ hstep hok hi => machineStep_passInv hstep hok.1 hok.2 hi
  have hach : Achieved s .after := by
    have hold := hinv.achieved
    unfold Loc.pastWorkQueueTask at hpast
    split at hpast
    · next hphase => rw [hphase] at hold; exact hold
    · cases hpast
  obtain ⟨hran, hdone⟩ := hach hsnap
  refine ⟨hran, ?_⟩
  rw [hinv.accounts, List.append_assoc, List.take_append_of_le_length hdone]
  exact List.take_prefix _ _

/-- One item is submitted before the first pass, whose clock value is then served. -/
def submitThenPass : List (Action 0 Unit Unit) :=
  [.call (.submit (some ()) ())] ++ List.replicate 6 .step ++ [.ret] ++ List.replicate 2 .step

theorem pass_executes_queued_first_pass :
    ∃ s : Machine 0 Unit Unit,
      SmallRun 1 (by decide)
        (fun s _ s' => ClockOk s s' ∧ lateSubmit (smallConfig 1 (by decide)) s s' = false)
        submitThenPass s ∧
      (s.loc.pastWorkQueueTask (smallConfig 1 (by decide)) = true ∧ 0 < s.snapshot) ∧
      s.ran = true ∧ s.shared.accepted.take s.snapshot <+: s.executed := by
  have hrun : ∃ s : Machine 0 Unit Unit,
      SmallRun 1 (by decide)
        (fun s _ s' => ClockOk s s' ∧ lateSubmit (smallConfig 1 (by decide)) s s' = false)
        submitThenPass s ∧
      (s.loc.pastWorkQueueTask (smallConfig 1 (by decide)) = true ∧ 0 < s.snapshot) := by
    apply exists_run_of_follow (fun s : Machine 0 Unit Unit =>
      s.loc.pastWorkQueueTask (smallConfig 1 (by decide)) = true ∧ 0 < s.snapshot)
    decide +kernel
  obtain ⟨s, run, hpast, hsnap⟩ := hrun
  exact ⟨s, run, ⟨hpast, hsnap⟩,
    pass_executes_queued _ _ _ _ s (by decide) run hpast hsnap⟩

/-- A second item, submitted one tick after the pass has read the clock, makes the pass skip
the work queue task although the first was queued when it began. -/
theorem pass_skips_queued_work :
    ∃ s : Machine 0 Unit Unit,
      SmallRun 1 (by decide) (fun s _ s' => ClockOk s s')
        ([.call (.submit (some ()) ()), .step, .step, .tick 1, .isr (.submit (some ()) ())] ++
          List.replicate 3 .step) s ∧
      s.loc.pastWorkQueueTask (smallConfig 1 (by decide)) = true ∧ s.snapshot = 1 ∧
        s.ran = false ∧ s.executed = [] :=
  exists_run_of_follow
    (fun s : Machine 0 Unit Unit =>
      s.loc.pastWorkQueueTask (smallConfig 1 (by decide)) = true ∧ s.snapshot = 1 ∧
        s.ran = false ∧ s.executed = [])
    (by decide +kernel)

end UniSdk.Planner
