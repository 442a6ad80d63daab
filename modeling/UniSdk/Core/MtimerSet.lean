import UniSdk.Core.MtimerCompare

/-!
# Setting the machine timer

`tlk_mtimer_set_mtime` and `tlk_mtimer_set_mtime_compare` set a 64-bit register with three writes
of 32 bits: the low word is moved out of the way, then come the high word and the low word of the
new value. Out of the way is zero for the counter and all ones for the compare value, so between
the writes the counter is never ahead of both its values, but for what it advances meanwhile, and
the compare register never below both of its own.
-/

namespace UniSdk.Core

open Library.Words Library.Runs

/-- The statement of `tlk_mtimer_set_mtime` that runs next. -/
inductive SetMtimeLoc
  | zero (time : Nat)
  | high (time : Nat)
  | low (time : Nat)
  deriving DecidableEq, Repr

/-- The statement that runs next, of either function. -/
inductive MtimerSetLoc
  | mtime (loc : SetMtimeLoc)
  | compare (loc : SetCompareLoc)
  deriving DecidableEq, Repr

/-- The registers of the machine timer and a call that sets one of them, which has returned where
`loc` is none. `elapsed` is history: how far the counter has advanced since the call. -/
structure MtimerSetter where
  mtime : Nat
  compare : CompareReg
  loc : Option MtimerSetLoc
  elapsed : Nat
  deriving DecidableEq, Repr

inductive SetterAction
  | tick (d : Nat)
  | step
  deriving DecidableEq, Repr

/-- A write of `tlk_mtimer_reg.time_l` and one of `tlk_mtimer_reg.time_h`. -/
def writeTimeL (mtime word : Nat) : Nat := u32 (mtime / 2 ^ 32) * 2 ^ 32 + u32 word

def writeTimeH (mtime word : Nat) : Nat := u32 word * 2 ^ 32 + u32 mtime

/-- One statement of `tlk_mtimer_set_mtime`, and the one that follows. -/
def tlkMtimerSetMtimeStep (mtime : Nat) : SetMtimeLoc → Nat × Option SetMtimeLoc
  | .zero time => (writeTimeL mtime 0, some (.high time))
  | .high time => (writeTimeH mtime (time / 2 ^ 32), some (.low time))
  | .low time => (writeTimeL mtime time, none)

def setterStep (s : MtimerSetter) : SetterAction → Option MtimerSetter
  | .tick d => some { s with mtime := u64 (s.mtime + d), elapsed := s.elapsed + d }
  | .step =>
    match s.loc with
    | none => none
    | some (.mtime loc) =>
      some { s with
        mtime := (tlkMtimerSetMtimeStep s.mtime loc).1
        loc := (tlkMtimerSetMtimeStep s.mtime loc).2.map .mtime }
    | some (.compare loc) =>
      some { s with
        compare := (tlkMtimerSetMtimeCompareStep s.compare loc).1
        loc := (tlkMtimerSetMtimeCompareStep s.compare loc).2.map .compare }

namespace MtimerSetter

/-- The counter is at `old`, and `tlk_mtimer_set_mtime(new)` is called. -/
def setMtime (compare : CompareReg) (old new : Nat) : MtimerSetter where
  mtime := old
  compare := compare
  loc := some (.mtime (.zero new))
  elapsed := 0

/-- The compare register holds `old`, and `tlk_mtimer_set_mtime_compare(new)` is called. -/
def setCompare (mtime old new : Nat) : MtimerSetter where
  mtime := mtime
  compare := .ofTime old
  loc := some (.compare (.max new))
  elapsed := 0

/-- The timer interrupt is pending. -/
def pending (s : MtimerSetter) : Bool := decide (s.compare.value ≤ s.mtime)

end MtimerSetter

/-! ## The compare register -/

/-- The compare register before each statement of a call, and after the last one. -/
inductive CompareStage (old new : Nat) : Option MtimerSetLoc → CompareReg → Prop
  | called : CompareStage old new (some (.compare (.max new))) (.ofTime old)
  | full : CompareStage old new (some (.compare (.high new))) ⟨u32 (old / 2 ^ 32), 0xffffffff⟩
  | raised : CompareStage old new (some (.compare (.low new))) ⟨u32 (new / 2 ^ 32), 0xffffffff⟩
  | returned : CompareStage old new none (.ofTime new)

section Compare

variable {old new : Nat} {s s' : MtimerSetter}

theorem setterStep_compareStage {a : SetterAction} (h : setterStep s a = some s')
    (hi : CompareStage old new s.loc s.compare) : CompareStage old new s'.loc s'.compare := by
  cases a with
  | tick d =>
    cases h
    exact hi
  | step =>
    obtain ⟨mtime, compare, loc, elapsed⟩ := s
    dsimp only at hi
    cases hi with
    | called => cases h; exact .full
    | full => cases h; exact .raised
    | raised => cases h; exact .returned
    | returned => cases h

/-- All ones in the low word are at least any low word. -/
theorem CompareReg.value_ofTime_le_full (time : Nat) :
    (CompareReg.ofTime time).value ≤ (CompareReg.mk (u32 (time / 2 ^ 32)) 0xffffffff).value := by
  have hlow : u32 time < 2 ^ 32 := Nat.mod_lt _ (by decide)
  exact Nat.add_le_add_left (Nat.le_pred_of_lt hlow) _

theorem CompareStage.min_le {loc : Option MtimerSetLoc} {r : CompareReg}
    (hi : CompareStage old new loc r) : min (u64 old) (u64 new) ≤ r.value := by
  rw [← value_ofTime old, ← value_ofTime new]
  cases hi with
  | called => exact min_le_left _ _
  | full => exact (min_le_left _ _).trans (CompareReg.value_ofTime_le_full old)
  | raised => exact (min_le_right _ _).trans (CompareReg.value_ofTime_le_full new)
  | returned => exact min_le_right _ _

theorem CompareStage.of_returned {loc : Option MtimerSetLoc} {r : CompareReg}
    (hi : CompareStage old new loc r) (hloc : loc = none) : r = .ofTime new := by
  subst hloc
  cases hi
  rfl

end Compare

/-! ## The counter -/

/-- How far the counter can be before each statement of a call and after the last one, and where it
is when it stands still. -/
inductive MtimeStage (old new elapsed : Nat) : Option MtimerSetLoc → Nat → Prop
  | called {mtime : Nat} (hle : mtime ≤ old + elapsed) :
    MtimeStage old new elapsed (some (.mtime (.zero new))) mtime
  | zeroed {mtime : Nat} (hle : mtime ≤ old + elapsed) (hlow : u32 mtime ≤ elapsed) :
    MtimeStage old new elapsed (some (.mtime (.high new))) mtime
  | raised {mtime : Nat} (hle : mtime ≤ new / 2 ^ 32 * 2 ^ 32 + elapsed)
      (hstill : elapsed = 0 → mtime = new / 2 ^ 32 * 2 ^ 32) :
    MtimeStage old new elapsed (some (.mtime (.low new))) mtime
  | returned {mtime : Nat} (hle : mtime ≤ new + elapsed) (hstill : elapsed = 0 → mtime = new) :
    MtimeStage old new elapsed none mtime

section Mtime

variable {old new elapsed : Nat} {s s' : MtimerSetter} {loc : Option MtimerSetLoc} {mtime : Nat}

theorem MtimeStage.tick (hi : MtimeStage old new elapsed loc mtime) (hwidth : mtime < 2 ^ 64)
    (d : Nat) : MtimeStage old new (elapsed + d) loc (u64 (mtime + d)) := by
  have hwrap : u64 (mtime + d) ≤ mtime + d := Nat.mod_le _ _
  have hstand : elapsed + d = 0 → u64 (mtime + d) = mtime := by
    intro hzero
    rw [Nat.eq_zero_of_add_eq_zero_left hzero, Nat.add_zero]
    exact u64_of_lt hwidth
  cases hi with
  | called hle => exact .called (by omega)
  | zeroed hle hlow =>
    refine .zeroed (by omega) ?_
    -- the wrap at 64 bits leaves the low word alone
    have hword : u32 (u64 (mtime + d)) = u32 (u32 mtime + d) := by
      unfold u32 u64
      omega
    rw [hword]
    exact (Nat.mod_le _ _).trans (Nat.add_le_add_right hlow d)
  | raised hle hstill =>
    refine .raised (by omega) fun hzero => ?_
    rw [hstand hzero]
    exact hstill (Nat.eq_zero_of_add_eq_zero_right hzero)
  | returned hle hstill =>
    refine .returned (by omega) fun hzero => ?_
    rw [hstand hzero]
    exact hstill (Nat.eq_zero_of_add_eq_zero_right hzero)

theorem writeTimeL_lt (mtime word : Nat) : writeTimeL mtime word < 2 ^ 64 := by
  unfold writeTimeL u32
  omega

theorem writeTimeH_lt (mtime word : Nat) : writeTimeH mtime word < 2 ^ 64 := by
  unfold writeTimeH u32
  omega

/-- The low word written as zero leaves no more than the high word. -/
theorem writeTimeL_zero_le (mtime : Nat) : writeTimeL mtime 0 ≤ mtime := by
  unfold writeTimeL u32
  omega

theorem u32_writeTimeL_zero (mtime : Nat) : u32 (writeTimeL mtime 0) = 0 := by
  unfold writeTimeL u32
  omega

/-- The high word written over a low word that has only counted since it was zero. -/
theorem writeTimeH_eq (hnew : new < 2 ^ 64) (mtime : Nat) :
    writeTimeH mtime (new / 2 ^ 32) = new / 2 ^ 32 * 2 ^ 32 + u32 mtime := by
  have hhigh : u32 (new / 2 ^ 32) = new / 2 ^ 32 := u32_of_lt (Nat.div_lt_of_lt_mul hnew)
  rw [writeTimeH, hhigh]

/-- The low word of `new` takes the place of what has been counted since its high word. -/
theorem writeTimeL_le (hle : mtime ≤ new / 2 ^ 32 * 2 ^ 32 + elapsed) :
    writeTimeL mtime new ≤ new + elapsed := by
  unfold writeTimeL u32
  omega

theorem writeTimeL_of_high (hnew : new < 2 ^ 64) :
    writeTimeL (new / 2 ^ 32 * 2 ^ 32) new = new := by
  unfold writeTimeL u32
  omega

/-- The registers during a call of `tlk_mtimer_set_mtime`, which leaves the compare value alone. -/
structure MtimeInv (old new : Nat) (compare : CompareReg) (s : MtimerSetter) : Prop where
  width : s.mtime < 2 ^ 64
  stage : MtimeStage old new s.elapsed s.loc s.mtime
  compare_eq : s.compare = compare

theorem setterStep_mtimeInv {compare : CompareReg} {a : SetterAction} (hnew : new < 2 ^ 64)
    (h : setterStep s a = some s') (hi : MtimeInv old new compare s) :
    MtimeInv old new compare s' := by
  obtain ⟨hwidth, hstage, hcompare⟩ := hi
  cases a with
  | tick d =>
    cases h
    exact ⟨u64_lt _, hstage.tick hwidth d, hcompare⟩
  | step =>
    obtain ⟨mtime, compare', loc, elapsed⟩ := s
    dsimp only at hwidth hstage
    cases hstage with
    | called hle =>
      cases h
      refine ⟨writeTimeL_lt _ _, .zeroed ((writeTimeL_zero_le mtime).trans hle) ?_, hcompare⟩
      exact (u32_writeTimeL_zero mtime).trans_le (Nat.zero_le _)
    | zeroed hle hlow =>
      cases h
      refine ⟨writeTimeH_lt _ _, .raised ?_ fun hzero => ?_, hcompare⟩
      · exact (writeTimeH_eq hnew mtime).trans_le (Nat.add_le_add_left hlow _)
      · have hstill : u32 mtime = 0 := Nat.eq_zero_of_le_zero (hlow.trans_eq hzero)
        exact (writeTimeH_eq hnew mtime).trans (by rw [hstill, Nat.add_zero])
    | raised hle hstill =>
      cases h
      refine ⟨writeTimeL_lt _ _, .returned (writeTimeL_le hle) fun hzero => ?_, hcompare⟩
      dsimp only [tlkMtimerSetMtimeStep]
      rw [hstill hzero]
      exact writeTimeL_of_high hnew
    | returned hle hstill => cases h

theorem MtimeStage.le_max (hi : MtimeStage old new elapsed loc mtime) :
    mtime ≤ max old new + elapsed := by
  have hold : old ≤ max old new := le_max_left _ _
  have hnew : new ≤ max old new := le_max_right _ _
  cases hi with
  | called hle => omega
  | zeroed hle hlow => omega
  | raised hle hstill => omega
  | returned hle hstill => omega

theorem MtimeStage.of_returned (hi : MtimeStage old new elapsed loc mtime) (hloc : loc = none) :
    elapsed = 0 → mtime = new := by
  subst hloc
  cases hi with
  | returned hle hstill => exact hstill

end Mtime

/-! ## Whole calls -/

section Calls

variable {old new mtime : Nat} {compare : CompareReg} {acts : List SetterAction}
  {s : MtimerSetter} {ok : MtimerSetter → SetterAction → MtimerSetter → Prop}

theorem setCompare_stage (run : Run setterStep ok (.setCompare mtime old new) acts s) :
    CompareStage old new s.loc s.compare :=
  run.invariant (P := fun s => CompareStage old new s.loc s.compare) .called
    fun _ _ _ hstep _ hi => setterStep_compareStage hstep hi

theorem setMtime_inv (hold : old < 2 ^ 64) (hnew : new < 2 ^ 64)
    (run : Run setterStep ok (.setMtime compare old new) acts s) : MtimeInv old new compare s :=
  run.invariant (P := MtimeInv old new compare) ⟨hold, .called (Nat.le_refl _), rfl⟩
    fun _ _ _ hstep _ hi => setterStep_mtimeInv hnew hstep hi

/-- The counter stands still in a run of statements alone. -/
theorem elapsed_of_steps {s₀ : MtimerSetter} (hstart : s₀.elapsed = 0)
    (run : Run setterStep (fun _ a _ => a = .step) s₀ acts s) : s.elapsed = 0 := by
  refine run.invariant (P := fun s => s.elapsed = 0) hstart fun s a s' hstep hok hi => ?_
  subst hok
  simp only [setterStep] at hstep
  split at hstep
  · cases hstep
  · cases hstep
    exact hi
  · cases hstep
    exact hi

/-- Three statements, and the call has returned. -/
theorem setCompare_returns (mtime old new : Nat) :
    ∃ s : MtimerSetter,
      Run setterStep (fun _ _ _ => True) (.setCompare mtime old new) [.step, .step, .step] s ∧
        s.loc = none :=
  ⟨_, .cons rfl trivial (.cons rfl trivial (.cons rfl trivial (.nil _))), rfl⟩

theorem setMtime_returns (compare : CompareReg) (old new : Nat) :
    ∃ s : MtimerSetter,
      Run setterStep (fun _ a _ => a = .step) (.setMtime compare old new) [.step, .step, .step] s ∧
        s.loc = none :=
  ⟨_, .cons rfl rfl (.cons rfl rfl (.cons rfl rfl (.nil _))), rfl⟩

theorem setCompare_min_le (hold : old < 2 ^ 64) (hnew : new < 2 ^ 64)
    (run : Run setterStep ok (.setCompare mtime old new) acts s) :
    min old new ≤ s.compare.value := by
  have hmin := (setCompare_stage run).min_le
  rwa [u64_of_lt hold, u64_of_lt hnew] at hmin

/-- **A setting makes no timer interrupt pending before its time.** However the counter advances
during a call of `tlk_mtimer_set_mtime_compare`, an interrupt is pending only once it has come to
the old or to the new compare value. -/
theorem setCompare_pending_due (hold : old < 2 ^ 64) (hnew : new < 2 ^ 64)
    (run : Run setterStep ok (.setCompare mtime old new) acts s) (hpending : s.pending = true) :
    old ≤ s.mtime ∨ new ≤ s.mtime :=
  min_le_iff.mp ((setCompare_min_le hold hnew run).trans (of_decide_eq_true hpending))

/-- And during one of `tlk_mtimer_set_mtime` only where the counter could have come to the compare
value from its old or from its new value. -/
theorem setMtime_pending_due (hold : old < 2 ^ 64) (hnew : new < 2 ^ 64)
    (run : Run setterStep ok (.setMtime compare old new) acts s) (hpending : s.pending = true) :
    compare.value ≤ old + s.elapsed ∨ compare.value ≤ new + s.elapsed := by
  obtain ⟨-, hstage, hcompare⟩ := setMtime_inv hold hnew run
  have hreached : compare.value ≤ s.mtime := by
    rw [← hcompare]
    exact of_decide_eq_true hpending
  have hle := hreached.trans hstage.le_max
  rw [max_add, le_max_iff] at hle
  exact hle

end Calls

/-- **Setting the machine timer creates no early deadline.** At every point of a call of
`tlk_mtimer_set_mtime_compare`, however the counter advances, the compare register is at least the
smaller one of its old and its new value; at every point of a call of `tlk_mtimer_set_mtime` the
counter, where it does not advance between the writes, is at most the larger one. Both calls
return, with the new value in the register. -/
theorem mtimer_settings_not_early (old new : Nat) (hold : old < 2 ^ 64) (hnew : new < 2 ^ 64) :
    (∀ (mtime : Nat) (acts : List SetterAction) (s : MtimerSetter),
      Run setterStep (fun _ _ _ => True) (.setCompare mtime old new) acts s →
        min old new ≤ s.compare.value ∧ (s.loc = none → s.compare.value = new)) ∧
    (∀ (compare : CompareReg) (acts : List SetterAction) (s : MtimerSetter),
      Run setterStep (fun _ a _ => a = .step) (.setMtime compare old new) acts s →
        s.mtime ≤ max old new ∧ (s.loc = none → s.mtime = new)) ∧
    (∀ mtime : Nat, ∃ s : MtimerSetter,
      Run setterStep (fun _ _ _ => True) (.setCompare mtime old new) [.step, .step, .step] s ∧
        s.loc = none) ∧
    ∀ compare : CompareReg, ∃ s : MtimerSetter,
      Run setterStep (fun _ a _ => a = .step) (.setMtime compare old new) [.step, .step, .step] s ∧
        s.loc = none := by
  refine ⟨fun mtime acts s run => ?_, fun compare acts s run => ?_,
    fun mtime => setCompare_returns mtime old new, fun compare => setMtime_returns compare old new⟩
  · refine ⟨setCompare_min_le hold hnew run, fun hloc => ?_⟩
    rw [(setCompare_stage run).of_returned hloc, value_ofTime, u64_of_lt hnew]
  · have hstage := (setMtime_inv hold hnew run).stage
    have hstill : s.elapsed = 0 := elapsed_of_steps rfl run
    rw [hstill] at hstage
    exact ⟨hstage.le_max, fun hloc => hstage.of_returned hloc rfl⟩

/-- Both registers are set across the carry into the high word, the compare value down and the
counter up, and stopped before the last write. -/
theorem mtimer_settings_not_early_carry :
    (∃ s : MtimerSetter,
      Run setterStep (fun _ _ _ => True) (.setCompare 3 (2 ^ 32 + 5) (2 ^ 32 - 2))
        [.step, .tick 4, .step] s ∧
      s.compare = ⟨0, 2 ^ 32 - 1⟩ ∧ min (2 ^ 32 + 5) (2 ^ 32 - 2) ≤ s.compare.value) ∧
    ∃ s : MtimerSetter,
      Run setterStep (fun _ a _ => a = .step) (.setMtime ⟨0, 0⟩ (2 ^ 32 - 2) (2 ^ 32 + 5))
        [.step, .step] s ∧
      s.mtime = 2 ^ 32 ∧ s.mtime ≤ max (2 ^ 32 - 2) (2 ^ 32 + 5) := by
  constructor
  · have hrun : ∃ s : MtimerSetter,
        Run setterStep (fun _ _ _ => True) (.setCompare 3 (2 ^ 32 + 5) (2 ^ 32 - 2))
          [.step, .tick 4, .step] s ∧ s.compare = ⟨0, 2 ^ 32 - 1⟩ := by
      apply exists_run_of_follow (fun s : MtimerSetter => s.compare = ⟨0, 2 ^ 32 - 1⟩)
      decide +kernel
    obtain ⟨s, run, hcompare⟩ := hrun
    have hbound := mtimer_settings_not_early (2 ^ 32 + 5) (2 ^ 32 - 2) (by decide) (by decide)
    exact ⟨s, run, hcompare, (hbound.1 _ _ s run).1⟩
  · have hrun : ∃ s : MtimerSetter,
        Run setterStep (fun _ a _ => a = .step) (.setMtime ⟨0, 0⟩ (2 ^ 32 - 2) (2 ^ 32 + 5))
          [.step, .step] s ∧ s.mtime = 2 ^ 32 := by
      apply exists_run_of_follow (fun s : MtimerSetter => s.mtime = 2 ^ 32)
      decide +kernel
    obtain ⟨s, run, hmtime⟩ := hrun
    have hbound := mtimer_settings_not_early (2 ^ 32 - 2) (2 ^ 32 + 5) (by decide) (by decide)
    exact ⟨s, run, hmtime, (hbound.2.1 _ _ s run).1⟩

end UniSdk.Core
