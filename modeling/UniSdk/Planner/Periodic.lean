import Mathlib.Order.Bounds.Basic
import UniSdk.Library.Runs
import UniSdk.Library.Scans
import UniSdk.Planner.SwTimer

/-!
# Periodic timers keep their schedule

With callbacks that leave the timers alone, one interrupt of the planner changes each timer by
what the timer itself says, makes at most one callback for it, and leaves `timer_next_deadline` at
the earliest expiry. A periodic timer is then due at its start plus a whole number of periods,
however late the interrupts are: a missed period is made up for by one of the next interrupts.
-/

namespace UniSdk.Planner

open Library.Words Library.Runs Library.Scans

variable {n : Nat} {φ α : Type}

/-! ## One interrupt -/

/-- The timers and their deadline stay, and the clock does not go back. -/
structure LeavesTimers (p p' : PlannerState n φ α) : Prop where
  timers : p'.timers = p.timers
  deadline : p'.timerNextDeadline = p.timerNextDeadline
  clock : p.mtime ≤ p'.mtime

/-- What such an interrupt leaves of the timer. -/
def irqTimer (now : Nat) (tm : SwTimer) : SwTimer := if callsBack now tm then tm.advance else tm

section Visit

variable {cb : Fin n → PlannerState n φ α → PlannerState n φ α}
  (hcb : ∀ i p, LeavesTimers p (cb i p)) (now : Nat)

include hcb

theorem irqVisit_timers (p : PlannerState n φ α) (i : Fin n) :
    (irqVisit now cb p i).timers = Function.update p.timers i (irqTimer now (p.timers i)) := by
  unfold irqVisit irqTimer callsBack
  by_cases hactive : (p.timers i).active = true
  · rw [if_pos hactive, irqLower_timers, hactive, Bool.true_and]
    by_cases hdue : notBefore now (p.timers i).expire = true
    · rw [if_pos hdue, if_pos hdue, irqAdvance_eq, PlannerState.setTimer, (hcb i p).timers]
    · rw [if_neg hdue, if_neg hdue, Function.update_eq_self]
  · rw [if_neg hactive, if_neg (by simp [hactive]), Function.update_eq_self]

/-- The deadline is lowered to what the timer expires at in the end. -/
theorem irqVisit_deadline (p : PlannerState n φ α) (i : Fin n) :
    (irqVisit now cb p i).timerNextDeadline =
      if (irqTimer now (p.timers i)).active = true ∧
        (irqTimer now (p.timers i)).expire < p.timerNextDeadline
      then (irqTimer now (p.timers i)).expire else p.timerNextDeadline := by
  have hlower : ∀ q : PlannerState n φ α, q.timerNextDeadline = p.timerNextDeadline →
      q.timers i = irqTimer now (p.timers i) →
      (irqLower i q).timerNextDeadline =
        if (irqTimer now (p.timers i)).active = true ∧
          (irqTimer now (p.timers i)).expire < p.timerNextDeadline
        then (irqTimer now (p.timers i)).expire else p.timerNextDeadline := by
    intro q hq hi
    unfold irqLower
    rw [hi, hq]
    split
    · rfl
    · exact hq
  have hself : (irqVisit now cb p i).timers i = irqTimer now (p.timers i) := by
    rw [irqVisit_timers hcb, Function.update_self]
  unfold irqVisit at hself ⊢
  by_cases hactive : (p.timers i).active = true
  · rw [if_pos hactive, irqLower_timers] at hself
    rw [if_pos hactive]
    refine hlower _ ?_ hself
    split
    · rw [irqAdvance_eq]
      exact (hcb i p).deadline
    · rfl
  · rw [if_neg hactive, irqTimer, callsBack]
    simp [hactive]

theorem irqVisit_clock (p : PlannerState n φ α) (i : Fin n) :
    p.mtime ≤ (irqVisit now cb p i).mtime := by
  unfold irqVisit
  split
  · rw [irqLower_mtime]
    split
    · rw [irqAdvance_eq]
      exact (hcb i p).clock
    · exact Nat.le_refl _
  · exact Nat.le_refl _

/-- An interrupt changes each timer by what the timer itself says. -/
theorem mtimerIrq_timers (d : Nat) (p : PlannerState n φ α) (i : Fin n) :
    (tlkTaskPlannerMtimerIrq cb d p).timers i = irqTimer (tlkMtimerGetMtime p) (p.timers i) := by
  have hscan := foldl_own (f := irqVisit (tlkMtimerGetMtime p) cb)
    (g := fun q j => q.timers j) (P := fun _ => True)
    (R := fun tm tm' => tm' = irqTimer (tlkMtimerGetMtime p) tm) (fun _ _ _ => trivial)
    (fun q j _ => by rw [irqVisit_timers hcb, Function.update_self])
    (fun q j k hk => by rw [irqVisit_timers hcb, Function.update_of_ne hk])
    (List.nodup_finRange n) (s := { p with timerNextDeadline := UINT64_MAX }) trivial i
  exact hscan.1 (List.mem_finRange i)

theorem mtimerIrq_clock (d : Nat) (p : PlannerState n φ α) :
    p.mtime ≤ (tlkTaskPlannerMtimerIrq cb d p).mtime := by
  have hscan : ∀ (l : List (Fin n)) (q : PlannerState n φ α),
      q.mtime ≤ (l.foldl (irqVisit (tlkMtimerGetMtime p) cb) q).mtime := by
    intro l
    induction l with
    | nil => exact fun q => Nat.le_refl _
    | cons i l ih => exact fun q => Nat.le_trans (irqVisit_clock hcb _ q i) (ih _)
  exact Nat.le_add_right_of_le (hscan _ { p with timerNextDeadline := UINT64_MAX })

end Visit

/-! ### The earliest expiry -/

/-- The deadline is the expiry of an active timer of `S`, unless there is none. -/
def Attained (S : Fin n → Prop) (p : PlannerState n φ α) : Prop :=
  p.timerNextDeadline = UINT64_MAX ∨
    ∃ i, S i ∧ (p.timers i).active = true ∧ (p.timers i).expire = p.timerNextDeadline

section Earliest

variable {cb : Fin n → PlannerState n φ α → PlannerState n φ α}
  (hcb : ∀ i p, LeavesTimers p (cb i p)) {S : Fin n → Prop} {p : PlannerState n φ α}

include hcb

/-- A visit may change the expiry of its own timer, from which the deadline does not come yet. -/
theorem irqVisit_attained (now : Nat) {i : Fin n} (hi : ¬ S i) (h : Attained S p) :
    Attained (fun j => S j ∨ j = i) (irqVisit now cb p i) := by
  have htimers := irqVisit_timers hcb now p i
  have hdeadline := irqVisit_deadline hcb now p i
  unfold Attained
  rw [htimers, hdeadline]
  split
  · next hlower =>
    refine .inr ⟨i, .inr rfl, ?_⟩
    rw [Function.update_self]
    exact ⟨hlower.1, rfl⟩
  · rcases h with hmax | ⟨j, hj, hactive, hexpire⟩
    · exact .inl hmax
    · have hne : j ≠ i := fun e => hi (e ▸ hj)
      refine .inr ⟨j, .inl hj, ?_⟩
      rw [Function.update_of_ne hne]
      exact ⟨hactive, hexpire⟩

theorem irqVisits_attained (now : Nat) {l : List (Fin n)} (hl : l.Nodup) (hS : ∀ i ∈ l, ¬ S i)
    (h : Attained S p) :
    Attained (fun j => S j ∨ j ∈ l) (l.foldl (irqVisit now cb) p) := by
  induction l generalizing S p with
  | nil =>
    rcases h with hmax | ⟨i, hi, hactive, hexpire⟩
    · exact .inl hmax
    · exact .inr ⟨i, .inl hi, hactive, hexpire⟩
  | cons i l ih =>
    obtain ⟨hi, hl⟩ := List.nodup_cons.mp hl
    have hvisit := irqVisit_attained hcb now (hS i List.mem_cons_self) h
    have hrest := ih hl (fun j hj hor => ?_) hvisit
    · rcases hrest with hmax | ⟨j, hj, hrest⟩
      · exact .inl hmax
      · refine .inr ⟨j, ?_, hrest⟩
        rcases hj with (hj | rfl) | hj
        · exact .inl hj
        · exact .inr List.mem_cons_self
        · exact .inr (List.mem_cons_of_mem i hj)
    · rcases hor with hin | rfl
      · exact hS j (List.mem_cons_of_mem i hj) hin
      · exact hi hj

/-- The interrupt leaves the deadline at the earliest expiry of an active timer. -/
theorem mtimerIrq_earliest (d : Nat) (p : PlannerState n φ α)
    (hwidth : ∀ i, ((tlkTaskPlannerMtimerIrq cb d p).timers i).active = true →
      ((tlkTaskPlannerMtimerIrq cb d p).timers i).expire ≤ UINT64_MAX)
    (hsome : ∃ i, ((tlkTaskPlannerMtimerIrq cb d p).timers i).active = true) :
    IsLeast {e | ∃ i, ((tlkTaskPlannerMtimerIrq cb d p).timers i).active = true ∧
        ((tlkTaskPlannerMtimerIrq cb d p).timers i).expire = e}
      (tlkTaskPlannerMtimerIrq cb d p).timerNextDeadline := by
  have hcovered : Covered (fun _ => True) (tlkTaskPlannerMtimerIrq cb d p) :=
    mtimerIrq_covered d fun S i q hq => hq.of_eq (hcb i q).timers (hcb i q).deadline
  have hattained : Attained (fun j => False ∨ j ∈ List.finRange n)
      ((List.finRange n).foldl (irqVisit (tlkMtimerGetMtime p) cb)
        { p with timerNextDeadline := UINT64_MAX }) :=
    irqVisits_attained hcb _ (List.nodup_finRange n) (fun _ _ => id) (.inl rfl)
  constructor
  · rcases hattained with hmax | ⟨i, -, hactive, hexpire⟩
    · obtain ⟨i, hactive⟩ := hsome
      have hmax' : (tlkTaskPlannerMtimerIrq cb d p).timerNextDeadline = UINT64_MAX := hmax
      refine ⟨i, hactive, Nat.le_antisymm ?_ (hcovered i trivial hactive)⟩
      rw [hmax']
      exact hwidth i hactive
    · exact ⟨i, hactive, hexpire⟩
  · rintro e ⟨i, hactive, rfl⟩
    exact hcovered i trivial hactive

end Earliest

/-! ## Runs -/

/-- The planner's data with the history of its timers: the clock when each was started, and the
callbacks made, each with the clock at the time. -/
structure TimerRun (n : Nat) (φ α : Type) where
  shared : PlannerState n φ α
  started : Fin n → Option Nat
  callbacks : List (Fin n × Nat)

/-- `other` is anything else: time that passes, a submit, the pass of the task context. -/
inductive TimerAction (n : Nat) (φ α : Type)
  | start (i : Fin n) (d : Nat)
  | irq (cb : Fin n → PlannerState n φ α → PlannerState n φ α) (d : Nat)
  | other (p : PlannerState n φ α)

/-- The clock values at the callbacks of timer `i`. -/
def callbackTimes (i : Fin n) (callbacks : List (Fin n × Nat)) : List Nat :=
  (callbacks.filter fun e => e.1 = i).map Prod.snd

/-- The body of the interrupt's loop, with a note of the callback it makes. -/
def irqVisitNoted (now : Nat) (cb : Fin n → PlannerState n φ α → PlannerState n φ α)
    (r : PlannerState n φ α × List (Fin n × Nat)) (i : Fin n) :
    PlannerState n φ α × List (Fin n × Nat) :=
  (irqVisit now cb r.1 i, if callsBack now (r.1.timers i) then r.2 ++ [(i, r.1.mtime)] else r.2)

/-- The callbacks made so far and in the interrupt. -/
def irqCallbacks (cb : Fin n → PlannerState n φ α → PlannerState n φ α) (p : PlannerState n φ α)
    (callbacks : List (Fin n × Nat)) : List (Fin n × Nat) :=
  ((List.finRange n).foldl (irqVisitNoted (tlkMtimerGetMtime p) cb)
    ({ p with timerNextDeadline := UINT64_MAX }, callbacks)).2

namespace TimerRun

def load [Inhabited α] (b : BootValues n) : TimerRun n φ α :=
  { shared := .load b, started := fun _ => none, callbacks := [] }

def timesOf (s : TimerRun n φ α) (i : Fin n) : List Nat := callbackTimes i s.callbacks

end TimerRun

/-- Each timer is started once. -/
def timerStep (s : TimerRun n φ α) : TimerAction n φ α → Option (TimerRun n φ α)
  | .start i d =>
    if s.started i = none then
      some { s with
        shared := tlkTaskSwTimerStart i d s.shared
        started := Function.update s.started i (some s.shared.mtime) }
    else none
  | .irq cb d =>
    some { s with
      shared := tlkTaskPlannerMtimerIrq cb d s.shared
      callbacks := irqCallbacks cb s.shared s.callbacks }
  | .other p => some { s with shared := p }

/-- The clock stays below the sign bit, and neither a callback nor anything else but a start and
the interrupt touches the timers. -/
structure LeftAlone (s : TimerRun n φ α) (a : TimerAction n φ α) (s' : TimerRun n φ α) : Prop where
  clock : s'.shared.mtime < 2 ^ 63
  callbacks : ∀ cb d, a = .irq cb d → ∀ i p, LeavesTimers p (cb i p)
  others : ∀ p, a = .other p → LeavesTimers s.shared p

/-- A periodic timer at clock `mtime`: not started yet, or started at `t` and due one period after
as many periods as it has made callbacks, none of them early. -/
inductive OnSchedule (period mtime : Nat) : SwTimer → Option Nat → List Nat → Prop
  | idle (expire : Nat) : OnSchedule period mtime ⟨expire, period, false, .periodic⟩ none []
  | running (t : Nat) (times : List Nat) (due : t + times.length * period ≤ mtime)
      (punctual : ∀ k (hk : k < times.length), t + (k + 1) * period ≤ times[k]) :
      OnSchedule period mtime ⟨t + (times.length + 1) * period, period, true, .periodic⟩ (some t)
        times

namespace OnSchedule

variable {period mtime : Nat} {tm : SwTimer} {started : Option Nat} {times : List Nat}

theorem mono (h : OnSchedule period mtime tm started times) {mtime' : Nat}
    (hclock : mtime ≤ mtime') : OnSchedule period mtime' tm started times := by
  cases h with
  | idle expire => exact .idle expire
  | running t times due punctual => exact .running t times (Nat.le_trans due hclock) punctual

/-- The next expiry is at most one period away. -/
theorem expire_le (h : OnSchedule period mtime tm started times) (hactive : tm.active = true) :
    tm.expire ≤ mtime + period := by
  cases h with
  | idle expire => cases hactive
  | running t times due punctual =>
    dsimp only
    rw [Nat.add_one_mul]
    omega

/-- Expiries at most half a turn ahead are told from those that have gone by. -/
theorem callsBack_iff (h : OnSchedule period mtime tm started times) (hperiod : period ≤ 2 ^ 63)
    (hclock : mtime < 2 ^ 63) :
    callsBack mtime tm = true ↔ tm.active = true ∧ tm.expire ≤ mtime := by
  unfold callsBack
  rw [Bool.and_eq_true]
  refine and_congr_right fun hactive => notBefore_iff_of_near hclock ?_
  have := h.expire_le hactive
  omega

/-- A callback moves the timer on by one period. -/
theorem callback {mtime' time : Nat} (h : OnSchedule period mtime tm started times)
    (hperiod : period ≤ 2 ^ 63) (hclock : mtime < 2 ^ 63) (hactive : tm.active = true)
    (hexpire : tm.expire ≤ mtime) (hmtime : mtime ≤ mtime') (htime : mtime ≤ time) :
    OnSchedule period mtime' tm.advance started (times ++ [time]) := by
  cases h with
  | idle expire => cases hactive
  | running t times due punctual =>
    dsimp only at hexpire
    have hnext : u64 (t + (times.length + 1) * period + period) =
        t + ((times ++ [time]).length + 1) * period := by
      rw [u64_of_lt (by omega), List.length_append, List.length_singleton,
        Nat.add_one_mul (times.length + 1), Nat.add_assoc]
    show OnSchedule period mtime' ⟨u64 (t + (times.length + 1) * period + period), period, true,
      .periodic⟩ (some t) (times ++ [time])
    rw [hnext]
    refine .running t (times ++ [time]) ?_ fun k hk => ?_
    · rw [List.length_append, List.length_singleton]
      omega
    · rw [List.getElem_append]
      split
      · next hlt => exact punctual k hlt
      · next hge =>
        have hlast : k = times.length := by
          rw [List.length_append, List.length_singleton] at hk
          omega
        rw [List.getElem_singleton, hlast]
        omega

end OnSchedule

theorem callbackTimes_append (i j : Fin n) (time : Nat) (callbacks : List (Fin n × Nat)) :
    callbackTimes i (callbacks ++ [(j, time)]) =
      if j = i then callbackTimes i callbacks ++ [time] else callbackTimes i callbacks := by
  unfold callbackTimes
  rw [List.filter_append, List.map_append]
  by_cases h : j = i <;> simp [h]

/-- The callbacks of one interrupt: at most one for each timer, and not before the interrupt. -/
theorem irqCallbacks_times {cb : Fin n → PlannerState n φ α → PlannerState n φ α}
    (hcb : ∀ i p, LeavesTimers p (cb i p)) (p : PlannerState n φ α)
    (callbacks : List (Fin n × Nat)) (i : Fin n) :
    if callsBack (tlkMtimerGetMtime p) (p.timers i) then
      ∃ time, p.mtime ≤ time ∧
        callbackTimes i (irqCallbacks cb p callbacks) = callbackTimes i callbacks ++ [time]
    else callbackTimes i (irqCallbacks cb p callbacks) = callbackTimes i callbacks := by
  have hscan := foldl_own (f := irqVisitNoted (tlkMtimerGetMtime p) cb)
    (g := fun r j => (r.1.timers j, callbackTimes j r.2)) (P := fun r => p.mtime ≤ r.1.mtime)
    (R := fun x y => if callsBack (tlkMtimerGetMtime p) x.1 then
      ∃ time, p.mtime ≤ time ∧ y.2 = x.2 ++ [time] else y.2 = x.2)
    (fun r j hr => Nat.le_trans hr (irqVisit_clock hcb _ r.1 j))
    (fun r j hr => ?_) (fun r j k hk => ?_) (List.nodup_finRange n)
    (s := ({ p with timerNextDeadline := UINT64_MAX }, callbacks)) (Nat.le_refl p.mtime) i
  · exact hscan.1 (List.mem_finRange i)
  · dsimp only [irqVisitNoted]
    split
    · rw [callbackTimes_append, if_pos rfl]
      exact ⟨_, hr, rfl⟩
    · rfl
  · dsimp only [irqVisitNoted]
    rw [irqVisit_timers hcb, Function.update_of_ne hk]
    split
    · rw [callbackTimes_append, if_neg (Ne.symm hk)]
    · rfl

/-- Every timer of the run is on schedule. -/
def AllOnSchedule (b : BootValues n) (s : TimerRun n φ α) : Prop :=
  ∀ i, OnSchedule (b.period i) s.shared.mtime (s.shared.timers i) (s.started i) (s.timesOf i)

variable {b : BootValues n} {s s' : TimerRun n φ α}

theorem AllOnSchedule.start (hi : AllOnSchedule b s) (hperiod : ∀ i, b.period i ≤ 2 ^ 63)
    {i : Fin n} {d : Nat} (hnone : s.started i = none)
    (hclock : (tlkTaskSwTimerStart i d s.shared).mtime < 2 ^ 63) :
    AllOnSchedule b { s with
      shared := tlkTaskSwTimerStart i d s.shared
      started := Function.update s.started i (some s.shared.mtime) } := by
  have hle := start_clock i d s.shared
  intro j
  show OnSchedule _ _ _ _ (s.timesOf j)
  dsimp only
  rw [start_timers]
  by_cases hj : j = i
  · subst hj
    rw [Function.update_self, Function.update_self]
    have hold := hi j
    rw [hnone] at hold
    generalize s.timesOf j = times at hold ⊢
    generalize s.shared.timers j = tm at hold ⊢
    cases hold with
    | idle expire =>
      have hp := hperiod j
      have hexpire : u64 (tlkMtimerGetMtime s.shared + b.period j) =
          s.shared.mtime + (([] : List Nat).length + 1) * b.period j := by
        rw [tlkMtimerGetMtime, u64_of_lt (n := s.shared.mtime) (by omega), u64_of_lt (by omega)]
        simp
      dsimp only
      rw [hexpire]
      refine .running s.shared.mtime [] ?_ fun k hk => absurd hk (Nat.not_lt_zero k)
      simpa using hle
  · rw [Function.update_of_ne hj, Function.update_of_ne hj]
    exact (hi j).mono hle

/-- What an interrupt does to a timer that is on schedule. -/
theorem AllOnSchedule.irq (hi : AllOnSchedule b s) (hperiod : ∀ i, b.period i ≤ 2 ^ 63)
    {cb : Fin n → PlannerState n φ α → PlannerState n φ α} (hcb : ∀ i p, LeavesTimers p (cb i p))
    {d : Nat} (hclock : (tlkTaskPlannerMtimerIrq cb d s.shared).mtime < 2 ^ 63) (i : Fin n) :
    OnSchedule (b.period i) (tlkTaskPlannerMtimerIrq cb d s.shared).mtime
        ((tlkTaskPlannerMtimerIrq cb d s.shared).timers i) (s.started i)
        (callbackTimes i (irqCallbacks cb s.shared s.callbacks)) ∧
      (callbackTimes i (irqCallbacks cb s.shared s.callbacks)).length = (s.timesOf i).length +
        if (s.shared.timers i).active = true ∧ (s.shared.timers i).expire ≤ s.shared.mtime
        then 1 else 0 := by
  have hle := mtimerIrq_clock hcb d s.shared
  have hlt : s.shared.mtime < 2 ^ 63 := Nat.lt_of_le_of_lt hle hclock
  have hnow : tlkMtimerGetMtime s.shared = s.shared.mtime := u64_of_lt (by omega)
  have htimes := irqCallbacks_times hcb s.shared s.callbacks i
  have hdue := (hi i).callsBack_iff (hperiod i) hlt
  rw [mtimerIrq_timers hcb, irqTimer]
  rw [hnow] at htimes ⊢
  by_cases hcalls : callsBack s.shared.mtime (s.shared.timers i) = true
  · obtain ⟨hactive, hexpire⟩ := hdue.mp hcalls
    rw [if_pos hcalls] at htimes ⊢
    obtain ⟨time, htime, hlist⟩ := htimes
    rw [hlist, if_pos ⟨hactive, hexpire⟩, List.length_append]
    exact ⟨(hi i).callback (hperiod i) hlt hactive hexpire hle htime, rfl⟩
  · rw [if_neg hcalls] at htimes ⊢
    rw [htimes, if_neg fun h => hcalls (hdue.mpr h)]
    exact ⟨(hi i).mono hle, rfl⟩

theorem timerStep_onSchedule {a : TimerAction n φ α} (hperiod : ∀ i, b.period i ≤ 2 ^ 63)
    (h : timerStep s a = some s') (hok : LeftAlone s a s') (hi : AllOnSchedule b s) :
    AllOnSchedule b s' := by
  cases a with
  | start i d =>
    simp only [timerStep] at h
    split at h
    · next hnone =>
      cases h
      exact hi.start hperiod hnone hok.clock
    · cases h
  | irq cb d =>
    cases h
    exact fun i => (hi.irq hperiod (hok.callbacks cb d rfl) hok.clock i).1
  | other p =>
    cases h
    have hquiet := hok.others p rfl
    intro i
    have hold := (hi i).mono hquiet.clock
    rw [← hquiet.timers] at hold
    exact hold

/-- **Periodic timers do not drift.** After `k` callbacks a timer started at `t` is due at `t` plus
`k + 1` periods, and none of the callbacks came before its own due time. An interrupt makes one
callback for every timer that is due by then and no other, and leaves `timer_next_deadline` at the
earliest expiry. -/
theorem periodic_timers_keep_schedule [Inhabited α] (b : BootValues n)
    (hmode : ∀ i, b.mode i = .periodic) (hperiod : ∀ i, b.period i ≤ 2 ^ 63)
    (acts : List (TimerAction n φ α)) (s : TimerRun n φ α)
    (run : Run timerStep LeftAlone (.load b) acts s) :
    (∀ i t, s.started i = some t →
      (s.shared.timers i).expire = t + ((s.timesOf i).length + 1) * b.period i ∧
      ∀ k (hk : k < (s.timesOf i).length), t + (k + 1) * b.period i ≤ (s.timesOf i)[k]) ∧
    ∀ cb d s', timerStep s (.irq cb d) = some s' → LeftAlone s (.irq cb d) s' →
      (∀ i, (s'.timesOf i).length = (s.timesOf i).length +
        if (s.shared.timers i).active = true ∧ (s.shared.timers i).expire ≤ s.shared.mtime
        then 1 else 0) ∧
      ((∃ i, (s'.shared.timers i).active = true) →
        IsLeast {e | ∃ i, (s'.shared.timers i).active = true ∧ (s'.shared.timers i).expire = e}
          s'.shared.timerNextDeadline) := by
  have hload : AllOnSchedule b (.load b : TimerRun n φ α) := by
    intro i
    have hidle : OnSchedule (b.period i) b.mtime ⟨0, b.period i, false, .periodic⟩ none [] :=
      .idle 0
    rw [← hmode i] at hidle
    exact hidle
  have hinv := run.invariant (P := AllOnSchedule b) hload
    fun _ _ _ hstep hok hi => timerStep_onSchedule hperiod hstep hok hi
  constructor
  · intro i t hstart
    have hi := hinv i
    rw [hstart] at hi
    generalize s.timesOf i = times at hi ⊢
    generalize s.shared.timers i = tm at hi ⊢
    cases hi with
    | running t times due punctual => exact ⟨rfl, punctual⟩
  · intro cb d s' hstep hok
    cases hstep
    have hcb := hok.callbacks cb d rfl
    have hirq := hinv.irq hperiod hcb hok.clock
    refine ⟨fun i => (hirq i).2, fun hsome => mtimerIrq_earliest hcb d s.shared ?_ hsome⟩
    intro i hactive
    have hexpire := (hirq i).1.expire_le hactive
    have hclock := hok.clock
    have hp := hperiod i
    dsimp only at hclock
    unfold UINT64_MAX
    omega

/-- One periodic timer of period 5. -/
def periodicBoot : BootValues 1 :=
  { bootAtZero 1 with period := fun _ => 5, mode := fun _ => .periodic }

/-- Started at time 0, the timer makes up at time 12 for the two periods it has missed. -/
theorem periodic_timers_catch_up :
    ∃ s : TimerRun 1 Unit Unit,
      Run timerStep LeftAlone (.load periodicBoot)
        [.start 0 12, .irq (fun _ p => p) 0, .irq (fun _ p => p) 0] s ∧
      s.timesOf 0 = [12, 12] ∧ (s.shared.timers 0).expire = 0 + (2 + 1) * 5 := by
  have hstart : ∀ s s' : TimerRun 1 Unit Unit, s'.shared.mtime < 2 ^ 63 →
      LeftAlone s (.start 0 12) s' :=
    fun _ _ hclock => ⟨hclock, fun _ _ => nofun, fun _ => nofun⟩
  have hirq : ∀ s s' : TimerRun 1 Unit Unit, s'.shared.mtime < 2 ^ 63 →
      LeftAlone s (.irq (fun _ p => p) 0) s' := by
    refine fun s s' hclock => ⟨hclock, fun cb d h => ?_, fun _ => nofun⟩
    cases h
    exact fun _ _ => ⟨rfl, rfl, Nat.le_refl _⟩
  have hrun : ∃ s : TimerRun 1 Unit Unit,
      Run timerStep LeftAlone (.load periodicBoot)
        [.start 0 12, .irq (fun _ p => p) 0, .irq (fun _ p => p) 0] s ∧
      s.started 0 = some 0 ∧ s.timesOf 0 = [12, 12] :=
    ⟨_, .cons rfl (hstart _ _ (by decide)) (.cons rfl (hirq _ _ (by decide))
      (.cons rfl (hirq _ _ (by decide)) (.nil _))), rfl, by decide⟩
  obtain ⟨s, run, hstarted, htimes⟩ := hrun
  have hkept := (periodic_timers_keep_schedule _ (fun _ => rfl)
    (fun _ => show 5 ≤ 2 ^ 63 by decide) _ _ run).1 0 0 hstarted
  rw [htimes] at hkept
  exact ⟨s, run, htimes, hkept.1⟩

end UniSdk.Planner
