import Mathlib.Data.List.FinRange
import UniSdk.Planner.WorkQueue

/-!
# Planner calls and the software timers

The data that `task_planner.c` shares between tasks and interrupt handlers, and the
calls that change it: submits of work, the four software timer calls and the machine
timer interrupt of the planner, whose callbacks make further calls. `mtime` counts the
ticks of the machine timer; the register the code reads is its 64-bit remainder, so a
large enough `tick` also models a clock that is set back.

No active timer is forgotten: every sequence of calls leaves `timer_next_deadline` at or
below the expiry of every active timer, although the interrupt resets it and rebuilds it
while callbacks start, stop and change timers on both sides of the scan.
-/

namespace UniSdk.Planner

open UniSdk.Core Library.Words

variable {n : Nat} {φ α : Type}

/-- `teSwTimer_mode`. -/
inductive SwTimerMode
  | oneShot
  | periodic
  deriving DecidableEq, Repr

/-- `tSwTimer`. What the callback does is given with each interrupt. -/
structure SwTimer where
  expire : Nat
  period : Nat
  active : Bool
  mode : SwTimerMode
  deriving DecidableEq, Repr

/-- The data shared by tasks and handlers. The last three fields are history: the work items
whose submit returned true, the clock at the last of them, and the clock value that the last
finished plan had read. -/
structure PlannerState (n : Nat) (φ α : Type) where
  mtime : Nat
  compareH : Nat
  compareL : Nat
  work : WorkState φ α
  timers : Fin n → SwTimer
  taskNextDeadline : Nat
  timerNextDeadline : Nat
  accepted : List (WorkItem φ α)
  acceptedAt : Nat
  planNow : Nat

def tlkMtimerGetMtime (s : PlannerState n φ α) : Nat := u64 s.mtime

def tlkMtimerGetMtimeCompare (s : PlannerState n φ α) : Nat := s.compareH * 2 ^ 32 + s.compareL

/-- What the load of the image leaves open: the clock, the compare register, the enable bits
and the periods and modes of the registered timers. -/
structure BootValues (n : Nat) where
  mtime : Nat
  compareH : Nat
  compareH_lt : compareH < 2 ^ 32
  compareL : Nat
  compareL_lt : compareL < 2 ^ 32
  mie : Mie
  period : Fin n → Nat
  mode : Fin n → SwTimerMode

/-- The clock starts at zero; every timer is one-shot with period ten. -/
def bootAtZero (n : Nat) : BootValues n where
  mtime := 0
  compareH := 0
  compareH_lt := by decide
  compareL := 0
  compareL_lt := by decide
  mie := ⟨false, false, false⟩
  period := fun _ => 10
  mode := fun _ => .oneShot

namespace PlannerState

/-- The initial values of the static data. -/
def load [Inhabited α] (b : BootValues n) : PlannerState n φ α where
  mtime := b.mtime
  compareH := b.compareH
  compareL := b.compareL
  work := { sWorkQueue := .init, wake := 0, mie := b.mie, swPending := false }
  timers := fun i => { expire := 0, period := b.period i, active := false, mode := b.mode i }
  taskNextDeadline := UINT64_MAX
  timerNextDeadline := UINT64_MAX
  accepted := []
  acceptedAt := 0
  planNow := 0

def tick (d : Nat) (s : PlannerState n φ α) : PlannerState n φ α := { s with mtime := s.mtime + d }

/-- `tlk_core_mie_enable` of all three machine interrupts. -/
def mieEnable (s : PlannerState n φ α) : PlannerState n φ α :=
  { s with work := { s.work with mie := s.work.mie.or ⟨true, true, true⟩ } }

def setTimer (i : Fin n) (tm : SwTimer) (s : PlannerState n φ α) : PlannerState n φ α :=
  { s with timers := Function.update s.timers i tm }

/-- `task_next_deadline` or `timer_next_deadline`, whichever is earlier. -/
def nextDeadline (s : PlannerState n φ α) : Nat :=
  if s.taskNextDeadline < s.timerNextDeadline then s.taskNextDeadline else s.timerNextDeadline

end PlannerState

def tlkMtimerSetMtimeCompare (time : Nat) (s : PlannerState n φ α) : PlannerState n φ α :=
  { s with compareH := u32 (time / 2 ^ 32), compareL := u32 time }

/-- The compare value for the deadline `next`, moved past `now` when it has gone by. -/
def planCompare (now next : Nat) : Nat :=
  let cmp := u64 (next + 1)
  if notBefore now cmp then u64 (now + 1) else cmp

/-- `tlk_task_planner_next_event_plan` without interruption. -/
def tlkTaskPlannerNextEventPlan (s : PlannerState n φ α) : PlannerState n φ α :=
  let now := tlkMtimerGetMtime s
  { tlkMtimerSetMtimeCompare (planCompare now s.nextDeadline) s with planNow := now }.mieEnable

/-- `tlk_task_work_submit` with the record of what was accepted. -/
def PlannerState.submit (c : QueueSize) (fn : Option φ) (arg : α) (s : PlannerState n φ α) :
    PlannerState n φ α :=
  let r := tlkTaskWorkSubmit c (tlkMtimerGetMtime s) fn arg s.work
  { s with
    work := r.2
    accepted := if r.1 then s.accepted ++ [⟨fn, arg⟩] else s.accepted
    acceptedAt := if r.1 then tlkMtimerGetMtime s else s.acceptedAt }

/-- `tlk_task_sw_timer_start`. The clock advances by `d` between its own reading and that of
the plan. -/
def tlkTaskSwTimerStart (i : Fin n) (d : Nat) (s : PlannerState n φ α) : PlannerState n φ α :=
  let expire := u64 (tlkMtimerGetMtime s + (s.timers i).period)
  let s := s.setTimer i { s.timers i with expire, active := true }
  let s := if expire < s.timerNextDeadline then { s with timerNextDeadline := expire } else s
  tlkTaskPlannerNextEventPlan (s.tick d)

theorem start_timers (i : Fin n) (d : Nat) (s : PlannerState n φ α) :
    (tlkTaskSwTimerStart i d s).timers = Function.update s.timers i
      { s.timers i with
        expire := u64 (tlkMtimerGetMtime s + (s.timers i).period), active := true } := by
  unfold tlkTaskSwTimerStart
  dsimp only
  split <;> rfl

theorem start_clock (i : Fin n) (d : Nat) (s : PlannerState n φ α) :
    s.mtime ≤ (tlkTaskSwTimerStart i d s).mtime := by
  unfold tlkTaskSwTimerStart
  dsimp only
  split
  · exact Nat.le_add_right _ d
  · exact Nat.le_add_right _ d

def tlkTaskSwTimerStop (i : Fin n) (s : PlannerState n φ α) : PlannerState n φ α :=
  s.setTimer i { s.timers i with active := false }

def tlkTaskSwTimerSetPeriod (i : Fin n) (period : Nat) (s : PlannerState n φ α) :
    PlannerState n φ α :=
  s.setTimer i { s.timers i with period }

def tlkTaskSwTimerSetMode (i : Fin n) (mode : SwTimerMode) (s : PlannerState n φ α) :
    PlannerState n φ α :=
  s.setTimer i { s.timers i with mode }

/-- What the interrupt does to a timer whose callback has returned. -/
def irqAdvance (i : Fin n) (s : PlannerState n φ α) : PlannerState n φ α :=
  let tm := s.timers i
  match tm.mode with
  | .periodic => s.setTimer i { tm with expire := u64 (tm.expire + tm.period) }
  | .oneShot => s.setTimer i { tm with active := false }

/-- Lower the next deadline to the expiry of an active timer. -/
def irqLower (i : Fin n) (s : PlannerState n φ α) : PlannerState n φ α :=
  if (s.timers i).active = true ∧ (s.timers i).expire < s.timerNextDeadline then
    { s with timerNextDeadline := (s.timers i).expire }
  else s

/-- The timer after its callback has returned. -/
def SwTimer.advance (tm : SwTimer) : SwTimer :=
  match tm.mode with
  | .periodic => { tm with expire := u64 (tm.expire + tm.period) }
  | .oneShot => { tm with active := false }

theorem irqAdvance_eq (i : Fin n) (s : PlannerState n φ α) :
    irqAdvance i s = s.setTimer i (s.timers i).advance := by
  unfold irqAdvance SwTimer.advance
  dsimp only
  split <;> rfl

@[simp] theorem irqLower_timers (i : Fin n) (s : PlannerState n φ α) :
    (irqLower i s).timers = s.timers := by
  unfold irqLower
  split <;> rfl

@[simp] theorem irqLower_mtime (i : Fin n) (s : PlannerState n φ α) :
    (irqLower i s).mtime = s.mtime := by
  unfold irqLower
  split <;> rfl

@[simp] theorem irqLower_taskNextDeadline (i : Fin n) (s : PlannerState n φ α) :
    (irqLower i s).taskNextDeadline = s.taskNextDeadline := by
  unfold irqLower
  split <;> rfl

/-- Does an interrupt that has read `now` make the callback of the timer? -/
def callsBack (now : Nat) (tm : SwTimer) : Bool := tm.active && notBefore now tm.expire

/-- The body of the interrupt's loop at timer `i`. -/
def irqVisit (now : Nat) (cb : Fin n → PlannerState n φ α → PlannerState n φ α)
    (s : PlannerState n φ α) (i : Fin n) : PlannerState n φ α :=
  if (s.timers i).active then
    irqLower i (if notBefore now (s.timers i).expire then irqAdvance i (cb i s) else s)
  else s

/-- `tlk_task_planner_mtimer_irq` with callbacks `cb`. The clock advances by `d` before the
closing plan. -/
def tlkTaskPlannerMtimerIrq (cb : Fin n → PlannerState n φ α → PlannerState n φ α) (d : Nat)
    (s : PlannerState n φ α) : PlannerState n φ α :=
  let now := tlkMtimerGetMtime s
  let s := (List.finRange n).foldl (irqVisit now cb) { s with timerNextDeadline := UINT64_MAX }
  tlkTaskPlannerNextEventPlan (s.tick d)

/-- A call of the planner's interface. The callbacks of an interrupt are sequences of calls,
and a further interrupt may be among them. -/
inductive Call (n : Nat) (φ α : Type)
  | tick (d : Nat)
  | submit (fn : Option φ) (arg : α)
  | swTimerStart (i : Fin n) (d : Nat)
  | swTimerStop (i : Fin n)
  | swTimerSetPeriod (i : Fin n) (period : Nat)
  | swTimerSetMode (i : Fin n) (mode : SwTimerMode)
  | mtimerIrq (cb : Fin n → List (Call n φ α)) (d : Nat)

mutual

def Call.run (c : QueueSize) : Call n φ α → PlannerState n φ α → PlannerState n φ α
  | .tick d, s => s.tick d
  | .submit fn arg, s => s.submit c fn arg
  | .swTimerStart i d, s => tlkTaskSwTimerStart i d s
  | .swTimerStop i, s => tlkTaskSwTimerStop i s
  | .swTimerSetPeriod i period, s => tlkTaskSwTimerSetPeriod i period s
  | .swTimerSetMode i mode, s => tlkTaskSwTimerSetMode i mode s
  | .mtimerIrq cb d, s => tlkTaskPlannerMtimerIrq (fun i s => runCalls c (cb i) s) d s

def runCalls (c : QueueSize) : List (Call n φ α) → PlannerState n φ α → PlannerState n φ α
  | [], s => s
  | call :: calls, s => runCalls c calls (call.run c s)

end

/-! ## No active timer is forgotten -/

/-- The deadline is at or below the expiry of every active timer of `S`. -/
def Covered (S : Fin n → Prop) (s : PlannerState n φ α) : Prop :=
  ∀ i, S i → (s.timers i).active = true → s.timerNextDeadline ≤ (s.timers i).expire

section Covered

variable {S : Fin n → Prop} {s : PlannerState n φ α}

theorem Covered.of_eq {s' : PlannerState n φ α} (h : Covered S s) (ht : s'.timers = s.timers)
    (hd : s'.timerNextDeadline = s.timerNextDeadline) : Covered S s' := by
  intro i hi ha
  rw [ht] at ha ⊢
  rw [hd]
  exact h i hi ha

/-- Replacing a timer and lowering the deadline below it keeps what was covered. -/
theorem Covered.setTimer_lower (h : Covered S s) (i : Fin n) (tm : SwTimer) {deadline : Nat}
    (hd : deadline ≤ s.timerNextDeadline) (htm : S i → tm.active = true → deadline ≤ tm.expire) :
    Covered S { s.setTimer i tm with timerNextDeadline := deadline } := by
  intro j hj
  by_cases hij : j = i
  · subst hij
    simp only [PlannerState.setTimer, Function.update_self]
    exact htm hj
  · simp only [PlannerState.setTimer, Function.update_of_ne hij]
    exact fun ha => Nat.le_trans hd (h j hj ha)

theorem Covered.setTimer (h : Covered S s) (i : Fin n) (tm : SwTimer)
    (htm : S i → tm.active = true → s.timerNextDeadline ≤ tm.expire) :
    Covered S (s.setTimer i tm) :=
  h.setTimer_lower i tm (Nat.le_refl _) htm

theorem Covered.plan (h : Covered S s) (d : Nat) :
    Covered S (tlkTaskPlannerNextEventPlan (s.tick d)) :=
  h.of_eq rfl rfl

theorem Covered.start (h : Covered S s) (i : Fin n) (d : Nat) :
    Covered S (tlkTaskSwTimerStart i d s) := by
  unfold tlkTaskSwTimerStart
  apply Covered.plan
  dsimp only
  split
  · next hlt => exact h.setTimer_lower i _ (Nat.le_of_lt hlt) fun _ _ => Nat.le_refl _
  · next hge => exact h.setTimer i _ fun _ _ => Nat.le_of_not_lt hge

/-- After the advance every other timer is still covered. -/
theorem Covered.advance (h : Covered S s) (i : Fin n) :
    Covered (fun j => S j ∧ j ≠ i) (irqAdvance i s) := by
  have hother : Covered (fun j => S j ∧ j ≠ i) s := fun j hj => h j hj.1
  unfold irqAdvance
  dsimp only
  split
  · exact hother.setTimer i _ fun hi => absurd rfl hi.2
  · exact hother.setTimer i _ fun hi => absurd rfl hi.2

/-- Lowering the deadline to timer `i` covers it besides the others. -/
theorem Covered.visit {i : Fin n} (h : Covered (fun j => S j ∧ j ≠ i) s) :
    Covered (fun j => S j ∨ j = i) (irqLower i s) := by
  unfold irqLower
  split
  · next hcond =>
    intro j hj ha
    by_cases hij : j = i
    · subst hij; exact Nat.le_refl _
    · exact Nat.le_trans (Nat.le_of_lt hcond.2) (h j ⟨hj.resolve_right hij, hij⟩ ha)
  · next hcond =>
    intro j hj ha
    by_cases hij : j = i
    · subst hij
      exact Nat.le_of_not_lt fun hlt => hcond ⟨ha, hlt⟩
    · exact h j ⟨hj.resolve_right hij, hij⟩ ha

variable {cb : Fin n → PlannerState n φ α → PlannerState n φ α}

/-- One round of the interrupt's loop covers its timer and uncovers none. -/
theorem irqVisit_covered (now : Nat) (i : Fin n) (hcb : ∀ s, Covered S s → Covered S (cb i s))
    (h : Covered S s) : Covered (fun j => S j ∨ j = i) (irqVisit now cb s i) := by
  unfold irqVisit
  by_cases ha : (s.timers i).active = true
  · rw [if_pos ha]
    apply Covered.visit
    split
    · exact (hcb s h).advance i
    · exact fun j hj => h j hj.1
  · rw [if_neg ha]
    intro j hj hja
    rcases hj with hj | rfl
    · exact h j hj hja
    · exact absurd hja ha

theorem irqVisits_covered (now : Nat) (l : List (Fin n))
    (hcb : ∀ (S : Fin n → Prop) i s, Covered S s → Covered S (cb i s)) (h : Covered S s) :
    Covered (fun j => S j ∨ j ∈ l) (l.foldl (irqVisit now cb) s) := by
  induction l generalizing S s with
  | nil => exact fun j hj => h j (hj.resolve_right List.not_mem_nil)
  | cons i l ih =>
    have hrest := ih (irqVisit_covered now i (hcb S i) h)
    intro j hj
    apply hrest
    rw [List.mem_cons] at hj
    rw [or_assoc]
    exact hj

/-- The interrupt covers every timer, whatever was covered before. -/
theorem mtimerIrq_covered (d : Nat)
    (hcb : ∀ (S : Fin n → Prop) i s, Covered S s → Covered S (cb i s)) :
    Covered S (tlkTaskPlannerMtimerIrq cb d s) := by
  unfold tlkTaskPlannerMtimerIrq
  apply Covered.plan
  have hnone : Covered (fun _ => False) { s with timerNextDeadline := UINT64_MAX } :=
    fun _ hi => hi.elim
  have hall := irqVisits_covered (tlkMtimerGetMtime s) (List.finRange n) hcb hnone
  exact fun j _ => hall j (.inr (List.mem_finRange j))

end Covered

mutual

theorem Call.run_covered (c : QueueSize) {S : Fin n → Prop} (call : Call n φ α)
    {s : PlannerState n φ α} (h : Covered S s) : Covered S (call.run c s) := by
  cases call with
  | tick d => exact h.of_eq rfl rfl
  | submit fn arg => exact h.of_eq rfl rfl
  | swTimerStart i d => exact h.start i d
  | swTimerStop i => exact h.setTimer i _ fun _ ha => by cases ha
  | swTimerSetPeriod i period => exact h.setTimer i _ (h i)
  | swTimerSetMode i mode => exact h.setTimer i _ (h i)
  | mtimerIrq cb d => exact mtimerIrq_covered d fun S i s hs => runCalls_covered c (cb i) hs

theorem runCalls_covered (c : QueueSize) {S : Fin n → Prop} (calls : List (Call n φ α))
    {s : PlannerState n φ α} (h : Covered S s) : Covered S (runCalls c calls s) := by
  cases calls with
  | nil => exact h
  | cons call calls => exact runCalls_covered c calls (call.run_covered c h)

end

/-- No active software timer is forgotten: after every sequence of calls and interrupts, with
callbacks that make any further calls, `timer_next_deadline` is at most the expiry of every
active timer. -/
theorem timer_next_deadline_covers_active [Inhabited α] (c : QueueSize) (b : BootValues n)
    (calls : List (Call n φ α)) (i : Fin n)
    (ha : ((runCalls c calls (.load b)).timers i).active = true) :
    (runCalls c calls (.load b)).timerNextDeadline ≤
      ((runCalls c calls (.load b)).timers i).expire := by
  have hstart : Covered (fun _ => True) (.load b : PlannerState n φ α) := by
    intro j _ hj
    cases hj
  exact runCalls_covered c calls hstart i trivial ha

/-- A one-shot timer whose callback restarts the periodic timer that the scan visits next. -/
theorem timer_next_deadline_covers_restarted :
    let b : BootValues 2 :=
      { mtime := 0, compareH := 0, compareH_lt := by decide, compareL := 0
        compareL_lt := by decide, mie := ⟨false, false, false⟩
        period := fun i => 5 + i.val
        mode := fun i => if i = 0 then .oneShot else .periodic }
    let calls : List (Call 2 Unit Unit) :=
      [.swTimerStart 0 0, .swTimerStart 1 0, .tick 8,
        .mtimerIrq (fun i => if i = 0 then [.swTimerStart 1 0] else []) 0]
    (runCalls smallQueue calls (.load b)).timerNextDeadline ≤
      ((runCalls smallQueue calls (.load b)).timers 1).expire := by
  intro b calls
  exact timer_next_deadline_covers_active _ b calls 1 (by decide)

end UniSdk.Planner
