import UniSdk.Planner.SwTimer

/-!
# A timer that its own callback restarts

The interrupt goes on with a timer after the callback has returned: it moves a periodic timer on
by one period and stops a one-shot timer. A start that the callback has made is treated the same
way, so a one-shot timer is stopped again and a periodic one expires a period too late.
-/

namespace UniSdk.Planner

open Library.Words

variable {n : Nat} {φ α : Type}

/-- The call leaves timer `i` alone. -/
def Call.spares (i : Fin n) : Call n φ α → Bool
  | .tick _ | .submit _ _ => true
  | .swTimerStart j _ | .swTimerStop j | .swTimerSetPeriod j _ | .swTimerSetMode j _ => j ≠ i
  | .mtimerIrq _ _ => false

theorem setTimer_other {i j : Fin n} (h : j ≠ i) (tm : SwTimer) (s : PlannerState n φ α) :
    (s.setTimer j tm).timers i = s.timers i :=
  Function.update_of_ne (Ne.symm h) ..

theorem Call.run_spares (c : QueueSize) {i : Fin n} {call : Call n φ α}
    (h : call.spares i = true) (s : PlannerState n φ α) :
    (call.run c s).timers i = s.timers i := by
  cases call with
  | tick d => rfl
  | submit fn arg => rfl
  | swTimerStart j d =>
    rw [Call.run, start_timers]
    exact Function.update_of_ne (Ne.symm (of_decide_eq_true h)) ..
  | swTimerStop j => exact setTimer_other (of_decide_eq_true h) _ s
  | swTimerSetPeriod j period => exact setTimer_other (of_decide_eq_true h) _ s
  | swTimerSetMode j mode => exact setTimer_other (of_decide_eq_true h) _ s
  | mtimerIrq cb d => cases h

theorem runCalls_spares (c : QueueSize) {i : Fin n} {calls : List (Call n φ α)}
    (h : ∀ call ∈ calls, call.spares i = true) (s : PlannerState n φ α) :
    (runCalls c calls s).timers i = s.timers i := by
  induction calls generalizing s with
  | nil => rfl
  | cons call calls ih =>
    rw [runCalls, ih (fun k hk => h k (List.mem_cons_of_mem call hk)),
      Call.run_spares c (h call List.mem_cons_self)]

theorem runCalls_append (c : QueueSize) (calls calls' : List (Call n φ α))
    (s : PlannerState n φ α) :
    runCalls c (calls ++ calls') s = runCalls c calls' (runCalls c calls s) := by
  induction calls generalizing s with
  | nil => rfl
  | cons call calls ih => exact ih (call.run c s)

/-- The callbacks of an interrupt in which timer `i` restarts itself: `before` its start come any
calls, and after it none that concerns the timer, nor does any other callback. -/
structure Restarts (i : Fin n) (cb : Fin n → List (Call n φ α)) (before : List (Call n φ α)) :
    Prop where
  own : ∃ d after, cb i = before ++ .swTimerStart i d :: after ∧
    ∀ call ∈ after, call.spares i = true
  others : ∀ j ≠ i, ∀ call ∈ cb j, call.spares i = true

/-- The state in which the callback of timer `i` is entered. -/
def callbackEntry (c : QueueSize) (i : Fin n) (cb : Fin n → List (Call n φ α))
    (s : PlannerState n φ α) : PlannerState n φ α :=
  ((List.finRange n).take i).foldl
    (irqVisit (tlkMtimerGetMtime s) fun j s => runCalls c (cb j) s)
    { s with timerNextDeadline := UINT64_MAX }

/-- What a restart in the state `q` promises of the state `r` when the interrupt returns. -/
structure RestartKept (i : Fin n) (q r : PlannerState n φ α) : Prop where
  active : (r.timers i).active = true
  expire : (r.timers i).expire = u64 (tlkMtimerGetMtime q + (q.timers i).period)
  deadline : r.timerNextDeadline ≤ (r.timers i).expire

section Restart

variable {c : QueueSize} {i : Fin n} {cb : Fin n → List (Call n φ α)} {before : List (Call n φ α)}

theorem irqVisit_spares {now : Nat} {j : Fin n} (hj : j ≠ i)
    (hcb : ∀ call ∈ cb j, call.spares i = true) (s : PlannerState n φ α) :
    (irqVisit now (fun j s => runCalls c (cb j) s) s j).timers i = s.timers i := by
  unfold irqVisit
  split
  · rw [irqLower_timers]
    split
    · rw [irqAdvance_eq, setTimer_other hj, runCalls_spares c hcb]
    · rfl
  · rfl

theorem irqVisits_spares {now : Nat} {l : List (Fin n)} (hl : i ∉ l)
    (hcb : ∀ j ≠ i, ∀ call ∈ cb j, call.spares i = true) (s : PlannerState n φ α) :
    (l.foldl (irqVisit now fun j s => runCalls c (cb j) s) s).timers i = s.timers i := by
  induction l generalizing s with
  | nil => rfl
  | cons j l ih =>
    have hj : j ≠ i := Ne.symm (List.ne_of_not_mem_cons hl)
    rw [List.foldl_cons, ih (List.not_mem_of_not_mem_cons hl), irqVisit_spares hj (hcb j hj)]

/-- What the callback leaves of its timer. -/
theorem restart_timer (h : Restarts i cb before) (s : PlannerState n φ α) :
    (runCalls c (cb i) s).timers i =
      { (runCalls c before s).timers i with
        expire := u64 (tlkMtimerGetMtime (runCalls c before s) +
          ((runCalls c before s).timers i).period)
        active := true } := by
  obtain ⟨d, after, hcb, hafter⟩ := h.own
  rw [hcb, runCalls_append, runCalls, runCalls_spares c hafter, Call.run, start_timers,
    Function.update_self]

/-- What the whole interrupt leaves of it: the state that the callback left, once more advanced. -/
theorem irq_restart_timer (h : Restarts i cb before) (d : Nat) {s : PlannerState n φ α}
    (hdue : callsBack (tlkMtimerGetMtime s) (s.timers i) = true) :
    ((Call.mtimerIrq cb d).run c s).timers i =
      SwTimer.advance ((runCalls c (cb i) (callbackEntry c i cb s)).timers i) := by
  have hsplit : List.finRange n =
      (List.finRange n).take i ++ i :: (List.finRange n).drop (i + 1) := by
    have hi : i.val < (List.finRange n).length := by rw [List.length_finRange]; exact i.isLt
    have hget : (List.finRange n)[i.val] = i := List.getElem_finRange hi
    have hdrop := List.drop_eq_getElem_cons hi
    rw [hget] at hdrop
    rw [← hdrop, List.take_append_drop]
  have hnodup := List.nodup_finRange n
  rw [hsplit] at hnodup
  have hnot := List.nodup_middle.mp hnodup
  rw [List.nodup_cons, List.mem_append, not_or] at hnot
  obtain ⟨⟨hbefore, hafter⟩, -⟩ := hnot
  have hentry : (callbackEntry c i cb s).timers i = s.timers i :=
    irqVisits_spares hbefore h.others _
  show ((List.finRange n).foldl (irqVisit (tlkMtimerGetMtime s) fun j s => runCalls c (cb j) s)
    { s with timerNextDeadline := UINT64_MAX }).timers i = _
  rw [hsplit, List.foldl_append, List.foldl_cons, irqVisits_spares hafter h.others]
  change (irqVisit (tlkMtimerGetMtime s) (fun j s => runCalls c (cb j) s)
    (callbackEntry c i cb s) i).timers i = _
  rw [callsBack, Bool.and_eq_true] at hdue
  rw [irqVisit, hentry, if_pos hdue.1, if_pos hdue.2, irqLower_timers, irqAdvance_eq]
  exact Function.update_self ..

/-- **When a timer may be restarted from its own callback.** The restart of a timer that is due
survives the interrupt exactly when the timer is periodic at the time and its period is zero. -/
theorem restart_kept_iff (h : Restarts i cb before) (d : Nat) {s : PlannerState n φ α}
    (hdue : callsBack (tlkMtimerGetMtime s) (s.timers i) = true) :
    RestartKept i (runCalls c before (callbackEntry c i cb s)) ((Call.mtimerIrq cb d).run c s) ↔
      ((runCalls c before (callbackEntry c i cb s)).timers i).mode = .periodic ∧
        u64 ((runCalls c before (callbackEntry c i cb s)).timers i).period = 0 := by
  have htimer := irq_restart_timer (c := c) h d hdue
  rw [restart_timer h] at htimer
  have hcovered : Covered (fun _ => True) ((Call.mtimerIrq cb d).run c s) :=
    mtimerIrq_covered d fun S j q hq => runCalls_covered c (cb j) hq
  generalize runCalls c before (callbackEntry c i cb s) = q at htimer ⊢
  generalize (Call.mtimerIrq cb d).run c s = r at htimer hcovered ⊢
  unfold SwTimer.advance at htimer
  cases hmode : (q.timers i).mode with
  | oneShot =>
    rw [hmode] at htimer
    constructor
    · intro hkept
      have hactive := hkept.active
      rw [htimer] at hactive
      cases hactive
    · rintro ⟨hperiodic, -⟩
      cases hperiodic
  | periodic =>
    rw [hmode] at htimer
    dsimp only at htimer
    have hexpire : (r.timers i).expire =
        u64 (u64 (tlkMtimerGetMtime q + (q.timers i).period) + (q.timers i).period) := by
      rw [htimer]
    have hshift : u64 (u64 (tlkMtimerGetMtime q + (q.timers i).period) + (q.timers i).period) =
        u64 (tlkMtimerGetMtime q + (q.timers i).period) ↔ u64 (q.timers i).period = 0 := by
      unfold u64
      omega
    have hactive : (r.timers i).active = true := by rw [htimer]
    constructor
    · intro hkept
      refine ⟨rfl, hshift.mp ?_⟩
      rw [← hexpire]
      exact hkept.expire
    · rintro ⟨-, hzero⟩
      exact ⟨hactive, hexpire.trans (hshift.mpr hzero), hcovered i trivial hactive⟩

end Restart

/-- One timer of mode `mode` and period 10, started at time 0 and due since time 10. -/
def dueTimer (i : Fin 1) (mode : SwTimerMode) : PlannerState 1 Unit Unit :=
  runCalls smallQueue [.swTimerSetMode i mode, .swTimerStart i 0, .tick 12] (.load (bootAtZero 1))

/-- The callback sets the period and restarts the timer. -/
def restartWith (i : Fin 1) (period : Nat) : Fin 1 → List (Call 1 Unit Unit) :=
  fun _ => [.swTimerSetPeriod i period, .swTimerStart i 0]

theorem restartWith_restarts (i : Fin 1) (period : Nat) :
    Restarts i (restartWith i period) [.swTimerSetPeriod i period] :=
  ⟨⟨0, [], rfl, nofun⟩, fun j hj => absurd (Subsingleton.elim j i) hj⟩

theorem restart_kept_period_zero :
    RestartKept 0
      (runCalls smallQueue [.swTimerSetPeriod 0 0]
        (callbackEntry smallQueue 0 (restartWith 0 0) (dueTimer 0 .periodic)))
      ((Call.mtimerIrq (restartWith 0 0) 0).run smallQueue (dueTimer 0 .periodic)) :=
  (restart_kept_iff (restartWith_restarts 0 0) 0 (by decide)).mpr (by decide)

/-- Restarted at time 12 for time 17, a one-shot timer is inactive when the interrupt returns, and
a periodic one expires at 22. -/
theorem restart_lost :
    (callsBack 12 ((dueTimer 0 .oneShot).timers 0) = true ∧
      ((Call.mtimerIrq (restartWith 0 5) 0).run smallQueue (dueTimer 0 .oneShot)).timers 0 =
        ⟨17, 5, false, .oneShot⟩ ∧
      ((Call.mtimerIrq (restartWith 0 5) 0).run smallQueue (dueTimer 0 .periodic)).timers 0 =
        ⟨22, 5, true, .periodic⟩) ∧
    ¬ RestartKept 0
      (runCalls smallQueue [.swTimerSetPeriod 0 5]
        (callbackEntry smallQueue 0 (restartWith 0 5) (dueTimer 0 .oneShot)))
      ((Call.mtimerIrq (restartWith 0 5) 0).run smallQueue (dueTimer 0 .oneShot)) := by
  refine ⟨by decide, fun h => ?_⟩
  exact absurd h.active (by decide)

end UniSdk.Planner
