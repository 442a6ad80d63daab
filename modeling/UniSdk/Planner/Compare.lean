import UniSdk.Planner.Machine

/-!
# Is the compare register ever later than the earliest software timer?

The plan of the task context reads the two deadlines, computes and writes the register with
interrupts enabled. A handler that starts an earlier timer meanwhile programs its expiry, and
the plan then overwrites it with the value it had computed. Apart from such a stale write, and
from one that is torn between the two words, the register is never later than the earliest
timer once no plan is in progress.
-/

namespace UniSdk.Planner

open Library.Words Library.Runs Machine

variable {n : Nat} {φ α : Type}

/-- The compare value is at most one past `timer_next_deadline`, or it is the tick after the
clock reading of the last plan, and that deadline lay before the reading. -/
def CompareCovers (p : PlannerState n φ α) : Prop :=
  tlkMtimerGetMtimeCompare p ≤ p.timerNextDeadline + 1 ∨
    (tlkMtimerGetMtimeCompare p = u64 (p.planNow + 1) ∧ p.timerNextDeadline < p.planNow)

instance (p : PlannerState n φ α) : Decidable (CompareCovers p) :=
  inferInstanceAs (Decidable (_ ∨ _))

theorem CompareCovers.of_eq {p p' : PlannerState n φ α} (h : CompareCovers p)
    (hh : p'.compareH = p.compareH) (hl : p'.compareL = p.compareL)
    (hd : p'.timerNextDeadline = p.timerNextDeadline) (hn : p'.planNow = p.planNow) :
    CompareCovers p' := by
  unfold CompareCovers tlkMtimerGetMtimeCompare at h ⊢
  rw [hh, hl, hd, hn]
  exact h

theorem words_of_compare {time : Nat} (h : time < 2 ^ 64) :
    u32 (time / 2 ^ 32) * 2 ^ 32 + u32 time = time := by
  unfold u32
  omega

theorem planCompare_cases (now next : Nat) :
    planCompare now next = u64 (now + 1) ∨ planCompare now next = u64 (next + 1) := by
  unfold planCompare
  dsimp only
  split
  · exact .inl rfl
  · exact .inr rfl

theorem planCompare_lt (now next : Nat) : planCompare now next < 2 ^ 64 := by
  rcases planCompare_cases now next with h | h
  · rw [h]; exact u64_lt _
  · rw [h]; exact u64_lt _

/-- A plan's value suits every state whose deadline is not before the one the plan read, and
every state at all when it is the tick after the clock reading. -/
theorem planCompare_covers {p : PlannerState n φ α} (now next : Nat)
    (hcompare : tlkMtimerGetMtimeCompare p = planCompare now next) (hnow : p.planNow = now)
    (hnext : next ≤ p.timerNextDeadline ∨ planCompare now next = u64 (now + 1)) :
    CompareCovers p := by
  unfold CompareCovers
  rw [hcompare, hnow]
  have hle : ∀ k, u64 (k + 1) ≤ k + 1 := fun k => Nat.mod_le _ _
  have hahead : planCompare now next = u64 (now + 1) →
      planCompare now next ≤ p.timerNextDeadline + 1 ∨
        (planCompare now next = u64 (now + 1) ∧ p.timerNextDeadline < now) := by
    intro h
    have := hle now
    by_cases hpast : p.timerNextDeadline < now
    · exact .inr ⟨h, hpast⟩
    · left; omega
  rcases hnext with h | h
  · rcases planCompare_cases now next with hc | hc
    · exact hahead hc
    · have := hle next
      left
      omega
  · exact hahead h

theorem nextDeadline_le (p : PlannerState n φ α) : p.nextDeadline ≤ p.timerNextDeadline := by
  unfold PlannerState.nextDeadline
  split
  · next h => exact Nat.le_of_lt h
  · exact Nat.le_refl _

/-- A plan that is not interrupted covers the earliest timer, whatever was programmed before. -/
theorem plan_covers (p : PlannerState n φ α) : CompareCovers (tlkTaskPlannerNextEventPlan p) := by
  refine planCompare_covers (tlkMtimerGetMtime p) p.nextDeadline ?_ rfl
    (.inl (nextDeadline_le p))
  exact words_of_compare (planCompare_lt _ _)

/-! ## An undisturbed plan -/

/-- A deadline below the sign bit, or none. -/
def IsDeadline (d : Nat) : Prop := d < 2 ^ 63 ∨ d = UINT64_MAX

instance (d : Nat) : Decidable (IsDeadline d) := inferInstanceAs (Decidable (_ ∨ _))

/-- What a plan is for: the compare value lies in the future, one past the earlier deadline where
that has not gone by, and out of reach where there is no deadline. -/
structure PlansNextEvent (p p' : PlannerState n φ α) : Prop where
  future : tlkMtimerGetMtime p < tlkMtimerGetMtimeCompare p'
  planned : p.taskNextDeadline ≠ UINT64_MAX ∨ p.timerNextDeadline ≠ UINT64_MAX →
    tlkMtimerGetMtimeCompare p' =
      max (min p.taskNextDeadline p.timerNextDeadline + 1) (tlkMtimerGetMtime p + 1)
  silent : p.taskNextDeadline = UINT64_MAX → p.timerNextDeadline = UINT64_MAX →
    ∀ time < 2 ^ 63, time < tlkMtimerGetMtimeCompare p'

theorem plan_compare (p : PlannerState n φ α) :
    tlkMtimerGetMtimeCompare (tlkTaskPlannerNextEventPlan p) =
      planCompare (tlkMtimerGetMtime p) p.nextDeadline :=
  words_of_compare (planCompare_lt _ _)

theorem nextDeadline_eq_min (p : PlannerState n φ α) :
    p.nextDeadline = min p.taskNextDeadline p.timerNextDeadline := by
  unfold PlannerState.nextDeadline
  split <;> omega

/-- A deadline below the sign bit is planned for exactly. -/
theorem planCompare_of_lt {now next : Nat} (hnow : now < 2 ^ 63) (hnext : next < 2 ^ 63) :
    planCompare now next = max (next + 1) (now + 1) := by
  unfold planCompare notBefore u64
  simp only [decide_eq_true_eq]
  split <;> omega

/-- `next + 1` wraps to zero at the largest word, which has always gone by. -/
theorem planCompare_max {now : Nat} (hnow : now < 2 ^ 63) :
    planCompare now UINT64_MAX = now + 1 := by
  unfold planCompare notBefore u64 UINT64_MAX
  simp only [decide_eq_true_eq]
  split <;> omega

/-- A plan below the sign bit is exact as long as there is a deadline. Without one it programs the
very next tick, which is out of reach at the last clock value only. -/
theorem plan_exact_iff (p : PlannerState n φ α) (hnow : tlkMtimerGetMtime p < 2 ^ 63)
    (htask : IsDeadline p.taskNextDeadline) (htimer : IsDeadline p.timerNextDeadline) :
    PlansNextEvent p (tlkTaskPlannerNextEventPlan p) ↔
      p.taskNextDeadline ≠ UINT64_MAX ∨ p.timerNextDeadline ≠ UINT64_MAX ∨
        tlkMtimerGetMtime p = 2 ^ 63 - 1 := by
  have hcompare := plan_compare p
  rw [nextDeadline_eq_min] at hcompare
  unfold IsDeadline at htask htimer
  by_cases hnone : p.taskNextDeadline = UINT64_MAX ∧ p.timerNextDeadline = UINT64_MAX
  · obtain ⟨htask', htimer'⟩ := hnone
    rw [htask', htimer', Nat.min_self, planCompare_max hnow] at hcompare
    constructor
    · intro h
      have hlast := h.silent htask' htimer' (2 ^ 63 - 1) (by decide)
      exact .inr (.inr (by omega))
    · rintro (h | h | h)
      · exact absurd htask' h
      · exact absurd htimer' h
      · refine ⟨by omega, fun hsome => ?_, fun _ _ time htime => by omega⟩
        exact absurd hsome (by rw [htask', htimer']; simp)
  · have hmin : min p.taskNextDeadline p.timerNextDeadline < 2 ^ 63 := by
      unfold UINT64_MAX at *
      omega
    rw [planCompare_of_lt hnow hmin] at hcompare
    constructor
    · intro _
      by_cases h : p.taskNextDeadline = UINT64_MAX
      · exact .inr (.inl fun h' => hnone ⟨h, h'⟩)
      · exact .inl h
    · intro _
      exact ⟨by omega, fun _ => hcompare, fun h h' => absurd ⟨h, h'⟩ hnone⟩

theorem plan_exact_timer_deadline :
    let p : PlannerState 1 Unit Unit :=
      { PlannerState.load (bootAtZero 1) with mtime := 7, timerNextDeadline := 10 }
    PlansNextEvent p (tlkTaskPlannerNextEventPlan p) := by
  intro p
  exact (plan_exact_iff p (by decide) (by decide) (by decide)).mpr (.inr (.inl (by decide)))

/-- Nothing is scheduled at time 7, and the timer event is programmed for time 8. -/
theorem plan_without_deadline :
    let p : PlannerState 1 Unit Unit := { PlannerState.load (bootAtZero 1) with mtime := 7 }
    tlkMtimerGetMtime p < 2 ^ 63 ∧ IsDeadline p.taskNextDeadline ∧
      IsDeadline p.timerNextDeadline ∧
      tlkMtimerGetMtimeCompare (tlkTaskPlannerNextEventPlan p) = 8 ∧
      ¬ PlansNextEvent p (tlkTaskPlannerNextEventPlan p) := by
  intro p
  have hcompare : tlkMtimerGetMtimeCompare (tlkTaskPlannerNextEventPlan p) = 8 := by decide
  refine ⟨by decide, by decide, by decide, hcompare, fun h => ?_⟩
  have hreach := h.silent rfl rfl 8 (by decide)
  rw [hcompare] at hreach
  exact Nat.lt_irrefl _ hreach

/-! ## The register over a whole run -/

/-- A call either ends with a plan or leaves deadline and register alone. -/
theorem Call.run_covers (c : QueueSize) (call : Call n φ α) {p : PlannerState n φ α}
    (h : CompareCovers p) : CompareCovers (call.run c p) := by
  cases call with
  | tick d => exact h.of_eq rfl rfl rfl rfl
  | submit fn arg => exact h.of_eq rfl rfl rfl rfl
  | swTimerStart i d => exact plan_covers _
  | swTimerStop i => exact h.of_eq rfl rfl rfl rfl
  | swTimerSetPeriod i period => exact h.of_eq rfl rfl rfl rfl
  | swTimerSetMode i mode => exact h.of_eq rfl rfl rfl rfl
  | mtimerIrq cb d => exact plan_covers _

/-- The plan writes its last word although a handler has left `timer_next_deadline` below the
deadline that the plan had read, and the plan's value is not the tick after its clock reading;
or the register's high word is not the one the plan wrote. -/
def stalePlan (s : Machine n φ α) (a : Action n φ α) : Bool :=
  match s.loc, a with
  | .plan (.writeL now next cmp), .step =>
    !((decide (next ≤ s.shared.timerNextDeadline) || decide (cmp = u64 (now + 1))) &&
      decide (s.shared.compareH = u32 (cmp / 2 ^ 32)))
  | _, _ => false

/-- What a plan in progress knows of its local `cmp`. -/
def Loc.cmpComputed : Loc φ α → Prop
  | .plan (.moveAhead _ next cmp) => cmp = u64 (next + 1)
  | .plan (.maskL now next cmp) | .plan (.writeH now next cmp) | .plan (.writeL now next cmp) =>
    cmp = planCompare now next
  | _ => True

/-- No plan is in progress, or the one in progress has written the register. -/
def Loc.settled : Loc φ α → Bool
  | .plan .mieEnable => true
  | .plan _ => false
  | _ => true

structure CompareInv (s : Machine n φ α) : Prop where
  computed : s.loc.cmpComputed
  covers : s.loc.settled = true → CompareCovers s.shared

variable {c : PlannerConfig} {s s' : Machine n φ α}

theorem External.covers {p p' : PlannerState n φ α} (h : External c.queue p p')
    (hp : CompareCovers p) : CompareCovers p' := by
  cases h with
  | call call => exact call.run_covers c.queue hp
  | msi => exact hp.of_eq rfl rfl rfl rfl

theorem inPass_computed {loc : Loc φ α} (h : loc.inPass = true) : loc.cmpComputed := by
  cases loc with
  | plan pc => cases pc with
    | readNow => trivial
    | _ => cases h
  | _ => trivial

theorem settled_of_not_plan {loc : Loc φ α} (h : ∀ pc, loc ≠ .plan pc) : loc.settled = true := by
  cases loc with
  | plan pc => exact absurd rfl (h pc)
  | _ => rfl

/-- A statement outside the plan leaves the deadline and the register alone. -/
theorem CompareInv.frame (hi : CompareInv s) (h : PassFrame c s s') : CompareInv s' :=
  ⟨inPass_computed h.inPass, fun _ => (hi.covers (settled_of_not_plan h.noPlan)).of_eq
    h.compareH h.compareL h.deadline h.planNow⟩

/-- The last write of the plan: the register then holds the computed value, and the condition
says that this value still suits the deadline. -/
theorem CompareInv.writeL {now next cmp : Nat} (hi : CompareInv s)
    (hloc : s.loc = .plan (.writeL now next cmp)) (hstale : stalePlan s .step = false) :
    CompareInv (planStep s (.writeL now next cmp)) := by
  have hcmp : cmp = planCompare now next := by
    have := hi.computed
    rw [hloc] at this
    exact this
  unfold stalePlan at hstale
  rw [hloc] at hstale
  dsimp only at hstale
  rw [Bool.not_eq_false', Bool.and_eq_true, Bool.or_eq_true, decide_eq_true_eq, decide_eq_true_eq,
    decide_eq_true_eq] at hstale
  obtain ⟨hfresh, hhigh⟩ := hstale
  refine ⟨trivial, fun _ => planCompare_covers now next ?_ rfl ?_⟩
  · show s.shared.compareH * 2 ^ 32 + u32 cmp = planCompare now next
    rw [hhigh, hcmp]
    exact words_of_compare (planCompare_lt now next)
  · rw [← hcmp]
    exact hfresh

theorem CompareInv.plan {pc : PlanLoc} (hi : CompareInv s) (hloc : s.loc = .plan pc)
    (hstale : stalePlan s .step = false) : CompareInv (planStep s pc) := by
  have hold := hi.computed
  rw [hloc] at hold
  cases pc with
  | readNow => exact ⟨trivial, fun hm => by cases hm⟩
  | readNext now => exact ⟨trivial, fun hm => by cases hm⟩
  | addOne now next => exact ⟨rfl, fun hm => by cases hm⟩
  | moveAhead now next cmp =>
    refine ⟨?_, fun hm => by cases hm⟩
    have hcmp : cmp = u64 (next + 1) := hold
    show (if notBefore now cmp then u64 (now + 1) else cmp) = planCompare now next
    rw [hcmp]
    rfl
  | maskL now next cmp => exact ⟨hold, fun hm => by cases hm⟩
  | writeH now next cmp => exact ⟨hold, fun hm => by cases hm⟩
  | writeL now next cmp => exact hi.writeL hloc hstale
  | mieEnable =>
    have hcovers := hi.covers (by rw [hloc]; rfl)
    exact ⟨trivial, fun _ => hcovers.of_eq rfl rfl rfl rfl⟩

theorem machineStep_compareInv {a : Action n φ α} (h : machineStep c s a = some s')
    (hstale : stalePlan s a = false) (hi : CompareInv s) : CompareInv s' := by
  obtain ⟨shared, rfl, hext⟩ | ⟨-, wake, active, rfl, -⟩ | hret | ⟨pc, hloc, hidle⟩ |
    ⟨rfl, hpass⟩ := machineStep_cases h
  · exact ⟨hi.computed, fun hm => hext.covers (hi.covers hm)⟩
  · exact ⟨hi.computed, hi.covers⟩
  · exact hi.frame (c := c) (bodyReturn_frame hret)
  · obtain ⟨loc, mtime, rfl, hnext⟩ := idleStep_cases hidle
    have hcovers := hi.covers (by rw [hloc]; rfl)
    refine ⟨?_, fun _ => hcovers.of_eq rfl rfl rfl rfl⟩
    rcases hnext with rfl | ⟨pc', rfl⟩
    · trivial
    · trivial
  · obtain ⟨pc, hloc, rfl⟩ | hframe := passStep_cases hpass
    · exact hi.plan hloc hstale
    · exact hi.frame hframe

/-- Without a handler in between, the statements of the plan compute the function that the
handlers call. -/
theorem plan_uninterrupted (c : PlannerConfig) (s : Machine n φ α)
    (hloc : s.loc = .plan .readNow) :
    Run (machineStep c) (fun _ _ _ => True) s (List.replicate 8 .step)
      ((s.onShared tlkTaskPlannerNextEventPlan).goto (.idle .compareH)) := by
  cases s
  cases hloc
  have hplan : ∀ t t' : Machine n φ α, ∀ pc, t.loc = .plan pc → planStep t pc = t' →
      machineStep c t .step = some t' := by
    intro t t' pc ht h
    simp only [machineStep, ht, passStep, h]
  refine .cons (hplan _ _ _ rfl rfl) trivial (.cons (hplan _ _ _ rfl rfl) trivial
    (.cons (hplan _ _ _ rfl rfl) trivial (.cons (hplan _ _ _ rfl rfl) trivial
    (.cons (hplan _ _ _ rfl rfl) trivial (.cons (hplan _ _ _ rfl rfl) trivial
    (.cons (hplan _ _ _ rfl rfl) trivial (.cons (hplan _ _ _ rfl rfl) trivial ?_)))))))
  exact .nil _

/-- In every run in which no plan of the task context ends with a stale or torn write, the
compare register is at most one past `timer_next_deadline` whenever no plan is in progress, or
it is the tick after the last plan's clock reading, which that deadline preceded. -/
theorem compare_covers_timers [Inhabited α] (c : PlannerConfig) (b : BootValues n)
    (active : Nat → Bool) (acts : List (Action n φ α)) (s : Machine n φ α)
    (run : Run (machineStep c) (fun s a _ => stalePlan s a = false) (.load c b active) acts s)
    (hplan : ∀ pc, s.loc ≠ .plan pc) : CompareCovers s.shared := by
  have hload : CompareInv (.load c b active : Machine n φ α) := by
    refine ⟨trivial, fun _ => .inl ?_⟩
    show b.compareH * 2 ^ 32 + b.compareL ≤ UINT64_MAX + 1
    have hh := b.compareH_lt
    have hl := b.compareL_lt
    unfold UINT64_MAX
    omega
  have hinv := run.invariant (P := CompareInv) hload
    fun _ _ _ hstep hstale hi => machineStep_compareInv hstep hstale hi
  exact hinv.covers (settled_of_not_plan hplan)

/-- The first pass with a second task that waits for time 1000, up to the point where the plan
has read the two deadlines. -/
def firstPassToDeadlines : List (Action 1 Unit Unit) :=
  [.setWake 1 1000] ++ List.replicate 15 .step

theorem compare_covers_timers_first_pass :
    ∃ s : Machine 1 Unit Unit,
      SmallRun 2 (by decide) (fun s a _ => stalePlan s a = false)
        (firstPassToDeadlines ++ List.replicate 6 .step ++ [.isr (.swTimerStart 0 0)]) s ∧
      s.loc = .idle .compareH ∧ CompareCovers s.shared := by
  have hrun : ∃ s : Machine 1 Unit Unit,
      SmallRun 2 (by decide) (fun s a _ => stalePlan s a = false)
        (firstPassToDeadlines ++ List.replicate 6 .step ++ [.isr (.swTimerStart 0 0)]) s ∧
      s.loc = .idle .compareH := by
    apply exists_run_of_follow (fun s : Machine 1 Unit Unit => s.loc = .idle .compareH)
    decide +kernel
  obtain ⟨s, run, hloc⟩ := hrun
  refine ⟨s, run, hloc, compare_covers_timers _ _ _ _ s run ?_⟩
  rw [hloc]
  exact fun _ => nofun

/-- A handler starts a timer that expires at 10 when the plan has read the deadline 1000. The
plan then leaves the register at 1001. -/
theorem compare_after_started_timer :
    ∃ s : Machine 1 Unit Unit,
      SmallRun 2 (by decide) (fun _ _ _ => True)
        (firstPassToDeadlines ++ [.isr (.swTimerStart 0 0)] ++ List.replicate 6 .step) s ∧
      s.loc = .idle .compareH ∧ tlkMtimerGetMtimeCompare s.shared = 1001 ∧
        s.shared.timerNextDeadline = 10 ∧ ¬ CompareCovers s.shared :=
  exists_run_of_follow
    (fun s : Machine 1 Unit Unit => s.loc = .idle .compareH ∧
      tlkMtimerGetMtimeCompare s.shared = 1001 ∧ s.shared.timerNextDeadline = 10 ∧
        ¬ CompareCovers s.shared)
    (by decide +kernel)

end UniSdk.Planner
