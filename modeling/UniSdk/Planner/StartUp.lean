import UniSdk.Common.InitArrays
import UniSdk.Planner.SwTimer

/-!
# The planner at start-up

`tlk_task_planner_init` is one of the functions that `tlk_perform_pre_init` calls: it copies the
tasks and the software timers from their load image to RAM. What a function that is called earlier
has done to a timer is lost, and the log is such a function: in the high priority configuration
`tlk_debug_log_init` starts its timer at a higher priority of the same level.
-/

namespace UniSdk.Planner

open UniSdk.Core UniSdk.Common

variable {n : Nat} {φ α : Type}

/-- The functions that are registered for the machine timer interrupt. -/
inductive MtimerCallback
  | tlkApiTimeHandleMtimerCallback
  | tlkTaskPlannerMtimerIrq
  deriving DecidableEq, Repr

/-- The planner's data with `tlk_mtimer_callback`. -/
structure StartUp (n : Nat) (φ α : Type) where
  planner : PlannerState n φ α
  mtimerCallback : Option MtimerCallback

/-- `TLK_SW_TIMER_REGISTER`. -/
def timerImage (b : BootValues n) (i : Fin n) : SwTimer where
  expire := 0
  period := b.period i
  active := false
  mode := b.mode i

/-- `tlk_task_planner_init`. Of the tasks the shared data hold the work queue's alone. -/
def tlkTaskPlannerInit (b : BootValues n) (s : StartUp n φ α) : StartUp n φ α where
  planner := { s.planner with
    timers := timerImage b
    work := { s.planner.work with
      wake := 0
      mie := tlkCoreMieEnable ⟨false, false, true⟩ s.planner.work.mie } }
  mtimerCallback := some .tlkTaskPlannerMtimerIrq

def plannerRegistration (b : BootValues n) : Registration (StartUp n φ α) :=
  ⟨TLK_INIT_LEVEL_APPLICATION, TLK_INIT_PRIORITY_NORMAL, tlkTaskPlannerInit b⟩

/-- `tlk_api_time_init_mtimer`. -/
def tlkApiTimeInitMtimer (s : StartUp n φ α) : StartUp n φ α :=
  { s with mtimerCallback := some .tlkApiTimeHandleMtimerCallback }

def apiTimeRegistration : Registration (StartUp n φ α) :=
  ⟨TLK_INIT_LEVEL_DRIVER, TLK_INIT_PRIORITY_NORMAL, tlkApiTimeInitMtimer⟩

/-- What `tlk_debug_log_init` does to its timer in the high priority configuration; the clock
advances by `d` within the call. -/
def tlkDebugLogInit (logTimer : Fin n) (d : Nat) (s : StartUp n φ α) : StartUp n φ α :=
  { s with planner := tlkTaskSwTimerStart logTimer d s.planner }

def logRegistration (logTimer : Fin n) (d : Nat) : Registration (StartUp n φ α) :=
  ⟨TLK_INIT_LEVEL_APPLICATION, TLK_INIT_PRIORITY_HIGH, tlkDebugLogInit logTimer d⟩

/-- The function is called before the planner's, or leaves the timer and the interrupt to it. -/
def LeavesToPlanner (i : Fin n) (r : Registration (StartUp n φ α)) : Prop :=
  r.rankedBefore TLK_INIT_LEVEL_APPLICATION TLK_INIT_PRIORITY_NORMAL = true ∨
    ∀ s, (r.fn s).planner.timers i = s.planner.timers i ∧
      (r.fn s).mtimerCallback = s.mtimerCallback

/-- **Only what is registered after the planner can start a timer.** Whatever the other functions
do that are called before `tlk_task_planner_init`, and in whatever order the linker places them, a
timer is after start-up as it was declared, and the machine timer interrupt is the planner's. -/
theorem timers_after_start_up (b : BootValues n) (i : Fin n)
    {registered : List (Registration (StartUp n φ α))} {image : InitImage (StartUp n φ α)}
    (linked : Linked .preInit registered (image .preInit)) (hdigits : SameDigits registered)
    (hplanner : plannerRegistration b ∈ registered)
    (hothers : ∀ r ∈ registered, r = plannerRegistration b ∨ LeavesToPlanner i r)
    (s : StartUp n φ α) :
    (tlkPerformPreInit image s).planner.timers i = timerImage b i ∧
    (tlkPerformPreInit image s).mtimerCallback = some .tlkTaskPlannerMtimerIrq := by
  have hview := performAll_sets linked hdigits hplanner
    (fun s => (s.planner.timers i, s.mtimerCallback))
    (timerImage b i, some .tlkTaskPlannerMtimerIrq) (fun _ => rfl)
    (fun r hr hrank s hs => by
      rcases hothers r hr with rfl | hearly | hleaves
      · rfl
      · rw [show r.rankedBefore TLK_INIT_LEVEL_APPLICATION TLK_INIT_PRIORITY_NORMAL = false from
          hrank] at hearly
        cases hearly
      · rw [(hleaves s).1, (hleaves s).2]
        exact hs) s
  exact Prod.mk.inj hview

/-- The log's timer has been started, and is not active. -/
theorem timers_after_start_up_log :
    let b : BootValues 1 := { bootAtZero 1 with mode := fun _ => .periodic }
    let s : StartUp 1 Unit Unit := ⟨.load b, none⟩
    let image : InitImage (StartUp 1 Unit Unit) := fun _ =>
      [apiTimeRegistration, logRegistration 0 0, plannerRegistration b]
    (tlkDebugLogInit 0 0 s).planner.timers 0 = ⟨10, 10, true, .periodic⟩ ∧
    (tlkPerformPreInit image s).planner.timers 0 = ⟨0, 10, false, .periodic⟩ ∧
    (tlkPerformPreInit image s).mtimerCallback = some .tlkTaskPlannerMtimerIrq := by
  intro b s image
  have linked : Linked .preInit (image .preInit) (image .preInit) :=
    ⟨List.Perm.refl _, by decide +kernel⟩
  refine ⟨by decide +kernel, timers_after_start_up b 0 linked (by decide +kernel)
    (by simp [image]) (fun r hr => ?_) s⟩
  simp only [image, List.mem_cons, List.not_mem_nil, or_false] at hr
  rcases hr with rfl | rfl | rfl
  · exact .inr (.inl (by decide))
  · exact .inr (.inl (by decide))
  · exact .inl rfl

end UniSdk.Planner
