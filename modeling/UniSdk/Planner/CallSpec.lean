import UniSdk.Planner.SwTimer

/-!
# What a planner call does to the work queue and to the clock

However deep its callbacks nest, a call only advances the clock and appends accepted items
to the queue. The wake time of the work queue task becomes the clock at the last of them,
and without one it stays as it was.
-/

namespace UniSdk.Planner

open Library.Words

variable {n : Nat} {φ α : Type} {c : QueueSize}

/-- The items `extra` were accepted between `s` and `s'`. -/
structure Accepts (c : QueueSize) (s s' : PlannerState n φ α) (extra : List (WorkItem φ α)) :
    Prop where
  clock : s.mtime ≤ s'.mtime
  consistent : s'.work.sWorkQueue.Consistent c
  accepted : s'.accepted = s.accepted ++ extra
  items : s'.work.sWorkQueue.items c = s.work.sWorkQueue.items c ++ extra
  idle : extra = [] → s'.acceptedAt = s.acceptedAt ∧ s'.work.wake = s.work.wake
  woken : extra ≠ [] → s'.work.wake = s'.acceptedAt ∧ ∃ t, t ≤ s'.mtime ∧ s'.acceptedAt = u64 t

/-- From a consistent queue, `s'` is reached by accepting some items. -/
def Serves (c : QueueSize) (s s' : PlannerState n φ α) : Prop :=
  s.work.sWorkQueue.Consistent c → ∃ extra, Accepts c s s' extra

theorem Accepts.trans {s s' s'' : PlannerState n φ α} {e e' : List (WorkItem φ α)}
    (h : Accepts c s s' e) (h' : Accepts c s' s'' e') : Accepts c s s'' (e ++ e') where
  clock := Nat.le_trans h.clock h'.clock
  consistent := h'.consistent
  accepted := by rw [h'.accepted, h.accepted, List.append_assoc]
  items := by rw [h'.items, h.items, List.append_assoc]
  idle := by
    intro hnil
    obtain ⟨he, he'⟩ := List.append_eq_nil_iff.mp hnil
    rw [(h'.idle he').1, (h'.idle he').2]
    exact h.idle he
  woken := by
    intro hne
    by_cases he' : e' = []
    · have he : e ≠ [] := fun he => hne (by rw [he, he']; rfl)
      obtain ⟨hw, t, ht, hat⟩ := h.woken he
      rw [(h'.idle he').1, (h'.idle he').2]
      exact ⟨hw, t, Nat.le_trans ht h'.clock, hat⟩
    · exact h'.woken he'

theorem Serves.trans {s s' s'' : PlannerState n φ α} (h : Serves c s s') (h' : Serves c s' s'') :
    Serves c s s'' := by
  intro hc
  obtain ⟨e, he⟩ := h hc
  obtain ⟨e', he'⟩ := h' he.consistent
  exact ⟨e ++ e', he.trans he'⟩

/-- A change of the other data serves nothing. -/
theorem Serves.of_eq {s s' : PlannerState n φ α} (hclock : s.mtime ≤ s'.mtime)
    (hqueue : s'.work.sWorkQueue = s.work.sWorkQueue) (hwake : s'.work.wake = s.work.wake)
    (haccepted : s'.accepted = s.accepted) (hat : s'.acceptedAt = s.acceptedAt) :
    Serves c s s' := by
  intro hc
  refine ⟨[], hclock, ?_, ?_, ?_, fun _ => ⟨hat, hwake⟩, fun h => absurd rfl h⟩
  · rw [hqueue]; exact hc
  · rw [haccepted, List.append_nil]
  · rw [hqueue, List.append_nil]

theorem Serves.refl (s : PlannerState n φ α) : Serves c s s :=
  .of_eq (Nat.le_refl _) rfl rfl rfl rfl

theorem submit_serves (fn : Option φ) (arg : α) (s : PlannerState n φ α) :
    Serves c s (s.submit c fn arg) := by
  intro hc
  obtain ⟨-, heq⟩ | ⟨f, rfl, hroom, heq⟩ := submit_cases hc (tlkMtimerGetMtime s) fn arg
  · have hsame : s.submit c fn arg = s := by simp [PlannerState.submit, heq]
    rw [hsame]
    exact Serves.refl s hc
  · obtain ⟨hcons, hitems⟩ := hc.store hroom f arg
    refine ⟨[⟨some f, arg⟩], Nat.le_refl _, ?_, ?_, ?_, fun h => absurd h (by simp), fun _ => ?_⟩
    · simp only [PlannerState.submit, heq]
      exact hcons
    · simp only [PlannerState.submit, heq, if_true]
    · simp only [PlannerState.submit, heq]
      exact hitems
    · simp only [PlannerState.submit, heq, if_true]
      exact ⟨trivial, s.mtime, Nat.le_refl _, rfl⟩

theorem plan_serves (d : Nat) (s : PlannerState n φ α) :
    Serves c s (tlkTaskPlannerNextEventPlan (s.tick d)) :=
  .of_eq (Nat.le_add_right _ d) rfl rfl rfl rfl

theorem swTimerStart_serves (i : Fin n) (d : Nat) (s : PlannerState n φ α) :
    Serves c s (tlkTaskSwTimerStart i d s) := by
  unfold tlkTaskSwTimerStart
  refine Serves.trans ?_ (plan_serves d _)
  dsimp only
  split
  · exact .of_eq (Nat.le_refl _) rfl rfl rfl rfl
  · exact .of_eq (Nat.le_refl _) rfl rfl rfl rfl

theorem irqAdvance_serves (i : Fin n) (s : PlannerState n φ α) : Serves c s (irqAdvance i s) := by
  unfold irqAdvance
  dsimp only
  split
  · exact .of_eq (Nat.le_refl _) rfl rfl rfl rfl
  · exact .of_eq (Nat.le_refl _) rfl rfl rfl rfl

theorem irqLower_serves (i : Fin n) (s : PlannerState n φ α) : Serves c s (irqLower i s) := by
  unfold irqLower
  split
  · exact .of_eq (Nat.le_refl _) rfl rfl rfl rfl
  · exact .refl s

theorem irqVisit_serves (now : Nat) {cb : Fin n → PlannerState n φ α → PlannerState n φ α}
    (hcb : ∀ i s, Serves c s (cb i s)) (s : PlannerState n φ α) (i : Fin n) :
    Serves c s (irqVisit now cb s i) := by
  unfold irqVisit
  split
  · refine Serves.trans ?_ (irqLower_serves i _)
    split
    · exact (hcb i s).trans (irqAdvance_serves i _)
    · exact .refl s
  · exact .refl s

theorem irqVisits_serves (now : Nat) {cb : Fin n → PlannerState n φ α → PlannerState n φ α}
    (hcb : ∀ i s, Serves c s (cb i s)) (l : List (Fin n)) (s : PlannerState n φ α) :
    Serves c s (l.foldl (irqVisit now cb) s) := by
  induction l generalizing s with
  | nil => exact .refl s
  | cons i l ih => exact (irqVisit_serves now hcb s i).trans (ih _)

theorem mtimerIrq_serves {cb : Fin n → PlannerState n φ α → PlannerState n φ α}
    (hcb : ∀ i s, Serves c s (cb i s)) (d : Nat) (s : PlannerState n φ α) :
    Serves c s (tlkTaskPlannerMtimerIrq cb d s) := by
  have hreset : Serves c s { s with timerNextDeadline := UINT64_MAX } :=
    .of_eq (Nat.le_refl _) rfl rfl rfl rfl
  exact (hreset.trans (irqVisits_serves _ hcb _ _)).trans (plan_serves d _)

mutual

theorem Call.run_serves (call : Call n φ α) (s : PlannerState n φ α) :
    Serves c s (call.run c s) := by
  cases call with
  | tick d => exact .of_eq (Nat.le_add_right _ d) rfl rfl rfl rfl
  | submit fn arg => exact submit_serves fn arg s
  | swTimerStart i d => exact swTimerStart_serves i d s
  | swTimerStop i => exact .of_eq (Nat.le_refl _) rfl rfl rfl rfl
  | swTimerSetPeriod i period => exact .of_eq (Nat.le_refl _) rfl rfl rfl rfl
  | swTimerSetMode i mode => exact .of_eq (Nat.le_refl _) rfl rfl rfl rfl
  | mtimerIrq cb d => exact mtimerIrq_serves (fun i s => runCalls_serves (cb i) s) d s

theorem runCalls_serves (calls : List (Call n φ α)) (s : PlannerState n φ α) :
    Serves c s (runCalls c calls s) := by
  cases calls with
  | nil => exact .refl s
  | cons call calls => exact (call.run_serves s).trans (runCalls_serves calls _)

end

end UniSdk.Planner
