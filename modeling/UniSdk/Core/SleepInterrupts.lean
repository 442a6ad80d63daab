import UniSdk.Core.Sleep

/-!
# The timer interrupt of a sleep

The callback of the timer interrupt is meant for one interrupt: it disables MTIE and moves the
compare value past the time. Taken between the time test of the loop and `wfi`, it leaves the call
waiting for an interrupt that is off or late. Where a handler that lets the timer interrupt through
has saved MIE before, as the timer's own with nesting, it enables MTIE again when it returns, and the
interrupt is taken once more.
-/

namespace UniSdk.Core

open Library.Words Library.Runs

/-! ## What the open handlers will restore -/

/-- What is known of a handler at each statement: with nesting it has saved its context before the
callback, and the timer's statements are run by the timer's handler only. -/
def IsrFrame.Sound (c : SleepConfig) (f : IsrFrame) : Prop :=
  match f.loc with
  | .saveContext => c.useNest f.source = true
  | .maskMie | .setMstatus | .clearMstatus | .restoreContext =>
    f.saved.isSome = true ∧ c.useNest f.source = true
  | .callback => f.source ≠ .timer ∧ f.saved.isSome = c.useNest f.source
  | .mieDisable | .getMtime | .setCompare _ =>
    f.source = .timer ∧ f.saved.isSome = c.useNest f.source
  | .mret => True

/-- The MIE that the handler has saved and not restored yet. -/
def IsrFrame.kept (f : IsrFrame) : Option Mie :=
  match f.loc with
  | .saveContext | .mret => none
  | _ => f.saved.map (·.mie)

/-- MTIE after the rest of the handler, when nothing else happens. -/
def IsrFrame.mtieAfter (mtie : Bool) (f : IsrFrame) : Bool :=
  match f.kept with
  | some mie => mie.mtie
  | none => mtie

/-- MTIE as the task context will find it. -/
def SleepHart.mtieAtReturn (s : SleepHart) : Bool :=
  s.frames.foldl IsrFrame.mtieAfter s.csrs.mie.mtie

section Frames

variable {c : SleepConfig} {s s' : SleepHart} {f : IsrFrame} {rest : List IsrFrame}

theorem isrExit_sound {source : Interrupt} {saved : Option Csrs}
    (hsaved : saved.isSome = c.useNest source) :
    IsrFrame.Sound c ⟨source, saved, isrExit c source⟩ := by
  unfold isrExit
  cases hn : c.useNest source with
  | true => exact ⟨hsaved.trans hn, hn⟩
  | false => trivial

theorem isrBody_sound {source : Interrupt} {saved : Option Csrs}
    (hsaved : saved.isSome = c.useNest source) :
    IsrFrame.Sound c ⟨source, saved, isrBody source⟩ := by
  cases source with
  | timer => exact ⟨rfl, hsaved⟩
  | software => exact ⟨nofun, hsaved⟩
  | external => exact ⟨nofun, hsaved⟩

/-- A handler goes on in its own frame or returns. -/
theorem isrStep_sound (hf : f.Sound c) (h : isrStep c s f rest f.loc = some s') :
    s'.frames = rest ∨ ∃ saved loc, s'.frames = ⟨f.source, saved, loc⟩ :: rest ∧
      IsrFrame.Sound c ⟨f.source, saved, loc⟩ := by
  obtain ⟨source, saved, loc⟩ := f
  cases loc with
  | saveContext =>
    cases h
    exact .inr ⟨_, _, rfl, rfl, hf⟩
  | maskMie | clearMstatus | mieDisable | getMtime =>
    cases h
    exact .inr ⟨_, _, rfl, hf⟩
  | setMstatus =>
    cases h
    exact .inr ⟨_, _, rfl, isrBody_sound (hf.1.trans hf.2.symm)⟩
  | callback =>
    cases h
    exact .inr ⟨_, _, rfl, isrExit_sound hf.2⟩
  | setCompare loc =>
    cases h
    refine .inr ⟨_, _, rfl, ?_⟩
    cases loc with
    | low time => exact isrExit_sound hf.2
    | _ => exact hf
  | restoreContext =>
    simp only [isrStep] at h
    split at h
    · cases h
    · cases h
      exact .inr ⟨_, _, rfl, trivial⟩
  | mret =>
    cases h
    exact .inl rfl

theorem isrEntry_sound (source : Interrupt) :
    IsrFrame.Sound c ⟨source, none, isrEntry c source⟩ := by
  unfold isrEntry
  cases hn : c.useNest source with
  | true => exact hn
  | false => exact isrBody_sound hn.symm

/-- The handler of another source leaves the compare register, and MTIE as the task context will
find it. -/
theorem isrStep_foreign (hf : f.Sound c) (hsource : f.source ≠ .timer)
    (hframes : s.frames = f :: rest) (h : isrStep c s f rest f.loc = some s') :
    s'.compare = s.compare ∧ s'.mtieAtReturn = s.mtieAtReturn := by
  unfold SleepHart.mtieAtReturn
  rw [hframes]
  obtain ⟨source, saved, loc⟩ := f
  cases loc with
  | maskMie | setMstatus | clearMstatus =>
    obtain ⟨csrs, rfl⟩ := Option.isSome_iff_exists.mp hf.1
    cases h
    refine ⟨rfl, ?_⟩
    cases source <;> rfl
  | restoreContext =>
    obtain ⟨csrs, rfl⟩ := Option.isSome_iff_exists.mp hf.1
    cases h
    exact ⟨rfl, rfl⟩
  | callback =>
    have hsaved : saved.isSome = c.useNest source := hf.2
    cases h
    refine ⟨rfl, ?_⟩
    dsimp only [isrExit]
    cases saved with
    | none => rw [← hsaved]; rfl
    | some csrs => rw [← hsaved]; rfl
  | mieDisable | getMtime | setCompare => exact absurd hf.1 hsource
  | saveContext | mret => cases h; exact ⟨rfl, rfl⟩

/-- A handler that has just been entered has saved nothing. -/
theorem isrEntry_mtieAfter (c : SleepConfig) (source : Interrupt) (mtie : Bool) :
    IsrFrame.mtieAfter mtie ⟨source, none, isrEntry c source⟩ = mtie := by
  unfold isrEntry
  cases c.useNest source with
  | true => rfl
  | false => cases source <;> rfl

end Frames

/-! ## The wake-up of a sleep -/

/-- No timer interrupt is being handled. -/
def SleepHart.Undisturbed (s : SleepHart) : Prop := ∀ f ∈ s.frames, f.source ≠ .timer

/-- What the statements before have brought about when no timer interrupt came since the write of
the high word: the compare register, and then MTIE. -/
def SleepStmt.Ready (s : SleepHart) (deadline : Nat) : SleepStmt → Prop
  | .readTime | .setCompare (.max _) | .setCompare (.high _) => True
  | .setCompare (.low _) => s.Undisturbed ∧ s.compare.high = u32 (deadline / 2 ^ 32)
  | .mieEnable => s.Undisturbed ∧ s.compare = .ofTime deadline
  | .mstatusEnable | .meieEnable | .loopTest | .wfi =>
    s.Undisturbed ∧ s.compare = .ofTime deadline ∧ s.mtieAtReturn = true

structure WakeInv (c : SleepConfig) (s : SleepHart) : Prop where
  sound : ∀ f ∈ s.frames, f.Sound c
  argument : ∀ ms loc, s.task = some (ms, .setCompare loc) → loc.time = s.deadline c ms
  ready : s.rearmed = false → ∀ ms stmt, s.task = some (ms, stmt) →
    stmt.Ready s (s.deadline c ms)

section Wake

variable {c : SleepConfig} {s s' : SleepHart}

/-- A step that leaves the register and MTIE as long as no timer interrupt is being handled. -/
theorem SleepStmt.Ready.kept {stmt : SleepStmt} {deadline : Nat} (h : stmt.Ready s deadline)
    (hkept : s.Undisturbed → s'.Undisturbed ∧ s'.compare = s.compare ∧
      s'.mtieAtReturn = s.mtieAtReturn) : stmt.Ready s' deadline := by
  cases stmt with
  | readTime => trivial
  | setCompare loc =>
    cases loc with
    | low time =>
      obtain ⟨hquiet, hcompare, -⟩ := hkept h.1
      exact ⟨hquiet, hcompare ▸ h.2⟩
    | _ => trivial
  | mieEnable =>
    obtain ⟨hquiet, hcompare, -⟩ := hkept h.1
    exact ⟨hquiet, hcompare.trans h.2⟩
  | mstatusEnable | meieEnable | loopTest | wfi =>
    obtain ⟨hquiet, hcompare, hmtie⟩ := hkept h.1
    exact ⟨hquiet, hcompare.trans h.2.1, hmtie.trans h.2.2⟩

/-- A step other than the call's. -/
theorem WakeInv.around (hi : WakeInv c s) (hsound : ∀ f ∈ s'.frames, f.Sound c)
    (htask : s'.task = s.task) (hcurrent : s'.currentTime = s.currentTime)
    (hkept : s'.rearmed = false → s.rearmed = false ∧ (s.Undisturbed → s'.Undisturbed ∧
      s'.compare = s.compare ∧ s'.mtieAtReturn = s.mtieAtReturn)) : WakeInv c s' := by
  have hdeadline : ∀ ms, s'.deadline c ms = s.deadline c ms := by
    intro ms
    rw [SleepHart.deadline, hcurrent]
    rfl
  refine ⟨hsound, fun ms loc h => ?_, fun hquiet ms stmt h => ?_⟩
  · rw [hdeadline]
    exact hi.argument ms loc (htask ▸ h)
  · obtain ⟨hbefore, hsame⟩ := hkept hquiet
    rw [hdeadline]
    exact (hi.ready hbefore ms stmt (htask ▸ h)).kept hsame

theorem undisturbed_of_no_frames (hframes : s.frames = []) : s.Undisturbed := by
  intro f hf
  rw [hframes] at hf
  exact absurd hf List.not_mem_nil

theorem mtieAtReturn_of_no_frames (hframes : s.frames = []) :
    s.mtieAtReturn = s.csrs.mie.mtie := by
  rw [SleepHart.mtieAtReturn, hframes]
  rfl

/-- The call goes on with a statement whose argument is the deadline and which is ready. -/
theorem WakeInv.goto {ms : Nat} {stmt : SleepStmt} (hframes : s.frames = [])
    (htask : s.task = some (ms, stmt))
    (hargument : ∀ loc, stmt = .setCompare loc → loc.time = s.deadline c ms)
    (hready : s.rearmed = false → stmt.Ready s (s.deadline c ms)) : WakeInv c s := by
  refine ⟨fun f hf => ?_, fun ms' loc h => ?_, fun hquiet ms' stmt' h => ?_⟩
  · rw [hframes] at hf
    exact absurd hf List.not_mem_nil
  · cases htask.symm.trans h
    exact hargument loc rfl
  · cases htask.symm.trans h
    exact hready hquiet

/-- The call returns. -/
theorem WakeInv.done (hframes : s.frames = []) (htask : s.task = none) : WakeInv c s := by
  refine ⟨fun f hf => ?_, fun ms loc h => ?_, fun _ ms stmt h => ?_⟩
  · rw [hframes] at hf
    exact absurd hf List.not_mem_nil
  · cases htask.symm.trans h
  · cases htask.symm.trans h

/-- A statement of the call, which runs while no handler is open. -/
theorem WakeInv.call (hi : WakeInv c s) {ms : Nat} {stmt : SleepStmt} (hframes : s.frames = [])
    (htask : s.task = some (ms, stmt)) : WakeInv c (tlkApiSleepStep c s ms stmt) := by
  have hnone : (tlkApiSleepStep c s ms stmt).frames = [] := by
    cases stmt <;> exact hframes
  have hundisturbed := undisturbed_of_no_frames hnone
  have hmtie := mtieAtReturn_of_no_frames hnone
  cases stmt with
  | readTime =>
    refine .goto hnone rfl (fun loc h => ?_) fun _ => trivial
    cases h
    rfl
  | setCompare loc =>
    have hargument := hi.argument ms loc htask
    cases loc with
    | max time =>
      refine .goto hnone rfl (fun loc h => ?_) fun _ => trivial
      cases h
      exact hargument
    | high time =>
      refine .goto hnone rfl (fun loc h => ?_) fun _ => ⟨hundisturbed, ?_⟩
      · cases h
        exact hargument
      · exact congrArg (fun t => u32 (t / 2 ^ 32)) hargument
    | low time =>
      refine .goto hnone rfl nofun fun hquiet => ⟨hundisturbed, ?_⟩
      have hhigh := (hi.ready hquiet ms _ htask).2
      show CompareReg.mk s.compare.high (u32 time) = .ofTime (s.deadline c ms)
      rw [hhigh, show time = s.deadline c ms from hargument]
      rfl
  | mieEnable =>
    refine .goto hnone rfl nofun fun hquiet => ?_
    exact ⟨hundisturbed, (hi.ready hquiet ms _ htask).2, hmtie.trans (Bool.or_true _)⟩
  | mstatusEnable =>
    refine .goto hnone rfl nofun fun hquiet => ?_
    obtain ⟨-, hcompare, hwake⟩ := hi.ready hquiet ms _ htask
    rw [mtieAtReturn_of_no_frames hframes] at hwake
    exact ⟨hundisturbed, hcompare, hmtie.trans hwake⟩
  | meieEnable =>
    refine .goto hnone rfl nofun fun hquiet => ?_
    obtain ⟨-, hcompare, hwake⟩ := hi.ready hquiet ms _ htask
    rw [mtieAtReturn_of_no_frames hframes] at hwake
    exact ⟨hundisturbed, hcompare, hmtie.trans ((Bool.or_false _).trans hwake)⟩
  | loopTest =>
    by_cases hbefore : s.getMtime < s.deadline c ms
    · exact .goto hnone (if_pos hbefore) nofun fun hquiet => hi.ready hquiet ms _ htask
    · exact .done hnone (if_neg hbefore)
  | wfi => exact .goto hnone rfl nofun fun hquiet => hi.ready hquiet ms _ htask

theorem sleepStep_wake {a : SleepAction} (h : sleepStep c s a = some s') (hi : WakeInv c s) :
    WakeInv c s' := by
  cases a with
  | tick d =>
    cases h
    exact hi.around hi.sound rfl rfl fun hquiet => ⟨hquiet, fun hu => ⟨hu, rfl, rfl⟩⟩
  | interrupt source pc =>
    simp only [sleepStep] at h
    split at h
    · cases h
      have htask := noteInterrupt_task source s
      refine hi.around ?_ htask.2.1 htask.2.2 fun hquiet => ?_
      · exact List.forall_mem_cons.mpr ⟨isrEntry_sound source, hi.sound⟩
      · have hmtie : (s.trap c source pc).mtieAtReturn = s.mtieAtReturn := by
          show s.frames.foldl IsrFrame.mtieAfter (IsrFrame.mtieAfter s.csrs.mie.mtie
            ⟨source, none, isrEntry c source⟩) = _
          rw [isrEntry_mtieAfter]
          rfl
        have hframes : source ≠ .timer → s.Undisturbed → (s.trap c source pc).Undisturbed :=
          fun hother hu => List.forall_mem_cons.mpr ⟨hother, hu⟩
        cases source with
        | timer => cases hquiet
        | software => exact ⟨hquiet, fun hu => ⟨hframes (by decide) hu, rfl, hmtie⟩⟩
        | external => exact ⟨hquiet, fun hu => ⟨hframes (by decide) hu, rfl, hmtie⟩⟩
    · cases h
  | sleep durationMs =>
    simp only [sleepStep] at h
    split at h
    · next hframes htask =>
      cases h
      refine ⟨hi.sound, fun ms loc hloc => ?_, fun _ ms stmt hstmt => ?_⟩
      · dsimp only at hloc
        split at hloc <;> cases hloc
      · dsimp only at hstmt
        split at hstmt
        · cases hstmt
        · cases hstmt; trivial
    · cases h
  | exec =>
    simp only [sleepStep] at h
    split at h
    · next f rest hframes =>
      obtain ⟨htask, -, hrearmed⟩ := isrStep_frame h
      have hall := hi.sound
      rw [hframes] at hall
      obtain ⟨hf, hrest⟩ := List.forall_mem_cons.mp hall
      have hnext := isrStep_sound hf h
      refine hi.around ?_ htask.2.1 htask.2.2 fun hquiet => ?_
      · rcases hnext with hret | ⟨saved, loc, hgo, hloc⟩
        · rw [hret]; exact hrest
        · rw [hgo]; exact List.forall_mem_cons.mpr ⟨hloc, hrest⟩
      · refine ⟨hrearmed.symm.trans hquiet, fun hu => ?_⟩
        rw [SleepHart.Undisturbed, hframes] at hu
        obtain ⟨hsource, hbelow⟩ := List.forall_mem_cons.mp hu
        obtain ⟨hcompare, hmtie⟩ := isrStep_foreign hf hsource hframes h
        refine ⟨?_, hcompare, hmtie⟩
        rcases hnext with hret | ⟨saved, loc, hgo, -⟩
        · rw [SleepHart.Undisturbed, hret]; exact hbelow
        · rw [SleepHart.Undisturbed, hgo]; exact List.forall_mem_cons.mpr ⟨hsource, hbelow⟩
    · next ms stmt hframes htask =>
      cases h
      exact hi.call hframes htask
    · cases h
  | write msie meie en =>
    simp only [sleepStep] at h
    split at h
    · cases h
      exact hi.around hi.sound rfl rfl fun hquiet => ⟨hquiet, fun hu => ⟨hu, rfl, rfl⟩⟩
    · cases h

end Wake

/-- **The timer will end the wait** whenever a call executes `wfi` in a run, as long as no timer
interrupt has been taken since the call wrote the high word of its deadline. -/
theorem wfi_armed (c : SleepConfig) (s₀ s : SleepHart) (acts : List SleepAction) (ms : Nat)
    (hstart : s₀.task = none ∧ s₀.frames = [])
    (run : Run (sleepStep c) (fun _ _ _ => True) s₀ acts s)
    (hwfi : s.task = some (ms, .wfi) ∧ s.frames = []) (hquiet : s.rearmed = false) :
    s.csrs.mie.mtie = true ∧ s.compare.value ≤ s.deadline c ms := by
  have hload : WakeInv c s₀ := by
    refine ⟨fun f hf => ?_, fun ms loc h => ?_, fun _ ms stmt h => ?_⟩
    · rw [hstart.2] at hf
      exact absurd hf List.not_mem_nil
    · rw [hstart.1] at h
      cases h
    · rw [hstart.1] at h
      cases h
  have hinv := run.invariant (P := WakeInv c) hload fun _ _ _ h _ hi => sleepStep_wake h hi
  obtain ⟨-, hcompare, hmtie⟩ := hinv.ready hquiet ms _ hwfi.1
  rw [SleepHart.mtieAtReturn, hwfi.2] at hmtie
  refine ⟨hmtie, ?_⟩
  rw [hcompare, value_ofTime]
  exact Nat.mod_le _ _

/-- A call for one millisecond up to its first `wfi`. -/
def sleepToWfi : List SleepAction := .sleep 1 :: List.replicate 8 .exec

/-- The call waits, and another interrupt is handled before its `wfi`. -/
theorem wfi_armed_once :
    ∃ s : SleepHart,
      Run (sleepStep (sleepBuild 24000000 fun _ => true)) (fun _ _ _ => True) (.idle 0)
        (sleepToWfi ++ .interrupt .external 100 :: List.replicate 7 .exec) s ∧
      s.task = some (1, .wfi) ∧ s.csrs.mie.mtie = true ∧
        s.compare.value ≤ s.deadline (sleepBuild 24000000 fun _ => true) 1 := by
  have hrun : ∃ s : SleepHart,
      Run (sleepStep (sleepBuild 24000000 fun _ => true)) (fun _ _ _ => True) (.idle 0)
        (sleepToWfi ++ .interrupt .external 100 :: List.replicate 7 .exec) s ∧
      s.task = some (1, .wfi) ∧ s.frames.isEmpty = true ∧ s.rearmed = false := by
    apply exists_run_of_follow (fun s : SleepHart =>
      s.task = some (1, .wfi) ∧ s.frames.isEmpty = true ∧ s.rearmed = false)
    decide +kernel
  obtain ⟨s, run, hwfi, hframes, hquiet⟩ := hrun
  exact ⟨s, run, hwfi, wfi_armed _ _ s _ 1 ⟨rfl, rfl⟩ run ⟨hwfi, List.isEmpty_iff.mp hframes⟩ hquiet⟩

/-- The deadline passes after the time test and before `wfi`: the interrupt is handled, and the call
waits with MTIE off. -/
theorem wfi_without_timer :
    ¬ ∀ (c : SleepConfig) (s₀ s : SleepHart) (acts : List SleepAction) (ms : Nat),
      s₀.task = none ∧ s₀.frames = [] →
      Run (sleepStep c) (fun _ _ _ => True) s₀ acts s →
      s.task = some (ms, .wfi) ∧ s.frames = [] →
      s.csrs.mie.mtie = true ∧ s.compare.value ≤ s.deadline c ms := by
  intro h
  have hrun : ∃ s : SleepHart,
      Run (sleepStep (sleepBuild 24000000 fun _ => false)) (fun _ _ _ => True) (.idle 0)
        (sleepToWfi ++ .tick 24000 :: .interrupt .timer 100 :: List.replicate 6 .exec) s ∧
      s.task = some (1, .wfi) ∧ s.frames.isEmpty = true ∧ s.csrs.mie.mtie = false := by
    apply exists_run_of_follow (fun s : SleepHart =>
      s.task = some (1, .wfi) ∧ s.frames.isEmpty = true ∧ s.csrs.mie.mtie = false)
    decide +kernel
  obtain ⟨s, run, hwfi, hframes, hoff⟩ := hrun
  have hon := (h _ _ s _ 1 ⟨rfl, rfl⟩ run ⟨hwfi, List.isEmpty_iff.mp hframes⟩).1
  rw [hoff] at hon
  cases hon

end UniSdk.Core
