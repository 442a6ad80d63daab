import UniSdk.Core.NestedTraps
import UniSdk.Core.PlicClear
import UniSdk.Library.Brackets

/-!
# Nested interrupts at the interrupt controller

The handlers of the interrupt controller with the wrappers that `TLK_PLIC_ISR_REGISTER` defines,
the claim and the complete message and the two halves of each change of the nesting counter as
statements of their own. An interrupt comes between any two statements: which ones the CSRs let
in does not matter here.
-/

namespace UniSdk.Core

open Library.Runs Library.Brackets

/-- `CONFIG_TLK_PLIC_VECTOR_MODE` and `CONFIG_TLK_PLIC_USE_NEST`, with its options. -/
structure PlicOptions where
  vectorMode : Bool
  nest : Option NestConfig

/-- A statement of a handler. `load` reads the nesting counter, `storeInc` and `storeDec` write it
back changed; `isr` is the registered function; `other` concerns neither the counter nor the
controller. -/
inductive VectorStmt
  | other (st : HandlerStmt)
  | claim
  | complete
  | load
  | storeInc
  | isr
  | storeDec
  deriving DecidableEq

/-- `entry_irq` of a source, around the call in its middle. -/
def entryIrq (call : List VectorStmt) : List VectorStmt :=
  [.load, .storeInc] ++ call ++ [.load, .storeDec]

/-- `tlk_plic_isr`, with `callback` for the call of `func`. -/
def tlkPlicIsr (nest : Option NestConfig) : List HandlerStmt :=
  match nest with
  | some c =>
    tlkCoreSaveNestedContext ++
      [.maskMie (tlkPlicMieMask c), .setMstatusMie, .callback, .clearMstatusMie, .complete] ++
      tlkCoreRestoreNestedContext
  | none => [.callback, .complete]

/-- `tlk_plic_handle` with and without the nested context. -/
def plicHandle (nest : Option NestConfig) : List HandlerStmt :=
  match nest with
  | some c => tlkPlicHandle c
  | none => [.claim, .callback, .complete]

/-- A statement of a handler of the controller, where `call` stands for its callback. -/
def plicStmt (call : List VectorStmt) : HandlerStmt → List VectorStmt
  | .claim => [.claim]
  | .complete => [.complete]
  | .callback => call
  | st => [.other st]

/-- What runs when an interrupt is taken. In vector mode it is the entry of the source, which the
hardware has claimed. The other two interrupts do not concern this controller. -/
def vectorHandler (o : PlicOptions) (c : NestConfig) : Interrupt → List VectorStmt
  | .external =>
    if o.vectorMode then entryIrq ((tlkPlicIsr o.nest).flatMap (plicStmt [.isr]))
    else (plicHandle o.nest).flatMap (plicStmt (entryIrq [.isr]))
  | source => (interruptHandler c source).map .other

/-- How far a handler is: what it has done, and whether its register holds the counter. -/
structure Progress where
  claimed : Bool
  completed : Bool
  entered : Bool
  left : Bool
  fresh : Bool
  deriving DecidableEq, Repr

namespace Progress

def start (claimed : Bool) : Progress := ⟨claimed, false, false, false, false⟩

/-- Claimed and not completed. -/
def isOpen (p : Progress) : Bool := p.claimed && !p.completed

/-- The nesting counter counts the handler. -/
def counted (p : Progress) : Bool := p.entered && !p.left

/-- A statement of a handler in its place. -/
def after (p : Progress) : VectorStmt → Option Progress
  | .other _ => some p
  | .claim => if p.claimed || p.completed then none else some { p with claimed := true }
  | .complete => if p.isOpen then some { p with completed := true } else none
  | .load => some { p with fresh := true }
  | .storeInc =>
    if p.fresh && !p.entered && !p.left then some { p with entered := true, fresh := false }
    else none
  | .isr => if p.counted then some p else none
  | .storeDec =>
    if p.fresh && p.counted then some { p with left := true, fresh := false } else none

/-- The statements come in order, and at their end nothing is open and nothing counted. -/
def finishes (p : Progress) : List VectorStmt → Bool
  | [] => !p.isOpen && !p.counted
  | st :: todo =>
    match p.after st with
    | some p' => p'.finishes todo
    | none => false

theorem after_of_finishes {p : Progress} {st : VectorStmt} {todo : List VectorStmt}
    (h : p.finishes (st :: todo) = true) :
    ∃ p', p.after st = some p' ∧ p'.finishes todo = true := by
  rw [finishes] at h
  cases hp : p.after st with
  | none => rw [hp] at h; cases h
  | some p' =>
    rw [hp] at h
    exact ⟨p', rfl, h⟩

end Progress

/-- A handler in execution, with its locals: the source it works on and the counter's value in a
register. -/
structure VectorFrame where
  src : Nat
  reg : Nat
  todo : List VectorStmt
  progress : Progress

/-- The handlers in execution, the running one first, `tlk_plic_nesting_counter`, and what has
been read from and written to the claim register. -/
structure VectorHart where
  frames : List VectorFrame
  counter : Nat
  accesses : List PlicAccess

/-- `exec src` runs the next statement; `src` is what a claim delivers. In vector mode an external
interrupt comes with the source that the hardware has claimed. -/
inductive VectorAction
  | interrupt (source : Interrupt) (src : Nat)
  | exec (src : Nat)
  | mret
  deriving DecidableEq, Repr

/-- One statement of the running handler. -/
def VectorStmt.exec (src : Nat) (f : VectorFrame) (counter : Nat) (accesses : List PlicAccess) :
    VectorStmt → VectorFrame × Nat × List PlicAccess
  | .other _ | .isr => (f, counter, accesses)
  | .claim => ({ f with src := src }, counter, accesses ++ [.claim src])
  | .complete => (f, counter, accesses ++ [.complete f.src])
  | .load => ({ f with reg := counter }, counter, accesses)
  | .storeInc => (f, (f.reg + 1) % 256, accesses)
  | .storeDec => (f, (f.reg + 255) % 256, accesses)

def vectorStep (o : PlicOptions) (c : NestConfig) (s : VectorHart) :
    VectorAction → Option VectorHart
  | .interrupt source src =>
    let claims := o.vectorMode && source == .external
    some
      { s with
        frames := ⟨src, 0, vectorHandler o c source, .start claims⟩ :: s.frames
        accesses := if claims then s.accesses ++ [.claim src] else s.accesses }
  | .exec src =>
    match s.frames with
    | f :: rest =>
      match f.todo with
      | st :: todo =>
        let r := st.exec src f s.counter s.accesses
        some
          { frames := { r.1 with
              todo
              progress := (f.progress.after st).getD f.progress } :: rest
            counter := r.2.1
            accesses := r.2.2 }
      | [] => none
    | [] => none
  | .mret =>
    match s.frames with
    | f :: rest =>
      match f.todo with
      | [] => some { s with frames := rest }
      | _ :: _ => none
    | [] => none

/-- `tlk_plic_is_in_isr` -/
def tlkPlicIsInIsr (s : VectorHart) : Bool := if s.counter > 0 then true else false

/-- A registered function runs. -/
def VectorHart.inIsr (s : VectorHart) : Bool := s.frames.any (·.progress.counted)

/-! ## What holds in every nesting -/

def PlicAccess.bracket : PlicAccess → Bracket Nat
  | .claim src => .enter src
  | .complete src => .leave src

/-- How many of the handlers the nesting counter counts. -/
def countedFrames (frames : List VectorFrame) : Nat := frames.countP (·.progress.counted)

/-- The sources that have been claimed and not completed, the innermost first. -/
def openSources (frames : List VectorFrame) : List Nat :=
  (frames.filter (·.progress.isOpen)).map (·.src)

/-- Each handler goes on in order. A counter value that one holds in a register is the one it will
find in the counter again when it goes on. -/
def FramesSound : List VectorFrame → Prop
  | [] => True
  | f :: rest =>
    f.progress.finishes f.todo = true ∧
      (f.progress.fresh = true → f.reg = countedFrames (f :: rest) % 256) ∧ FramesSound rest

theorem countedFrames_cons (f : VectorFrame) (rest : List VectorFrame) :
    countedFrames (f :: rest) = countedFrames rest + if f.progress.counted then 1 else 0 :=
  List.countP_cons

theorem openSources_cons (f : VectorFrame) (rest : List VectorFrame) :
    openSources (f :: rest) =
      if f.progress.isOpen then f.src :: openSources rest else openSources rest := by
  unfold openSources
  rw [List.filter_cons]
  split <;> rfl

structure PlicInv (s : VectorHart) : Prop where
  sound : FramesSound s.frames
  counter : s.counter = countedFrames s.frames % 256
  accesses : stillOpen (s.accesses.map PlicAccess.bracket) = some (openSources s.frames)

/-- The invariant, seen from the running handler. -/
structure TopInv (f : VectorFrame) (rest : List VectorFrame) (counter : Nat)
    (accesses : List PlicAccess) : Prop where
  finishes : f.progress.finishes f.todo = true
  fresh : f.progress.fresh = true →
    f.reg = (countedFrames rest + if f.progress.counted then 1 else 0) % 256
  waiting : FramesSound rest
  counter : counter = (countedFrames rest + if f.progress.counted then 1 else 0) % 256
  accesses : stillOpen (accesses.map PlicAccess.bracket) =
    some (if f.progress.isOpen then f.src :: openSources rest else openSources rest)

theorem plicInv_cons_iff (f : VectorFrame) (rest : List VectorFrame) (counter : Nat)
    (accesses : List PlicAccess) :
    PlicInv ⟨f :: rest, counter, accesses⟩ ↔ TopInv f rest counter accesses := by
  constructor
  · rintro ⟨⟨hfinishes, hfresh, hrest⟩, hcounter, haccesses⟩
    rw [countedFrames_cons] at hfresh hcounter
    rw [openSources_cons] at haccesses
    exact ⟨hfinishes, hfresh, hrest, hcounter, haccesses⟩
  · rintro ⟨hfinishes, hfresh, hrest, hcounter, haccesses⟩
    rw [← countedFrames_cons] at hfresh hcounter
    rw [← openSources_cons] at haccesses
    exact ⟨⟨hfinishes, hfresh, hrest⟩, hcounter, haccesses⟩

theorem handler_finishes (o : PlicOptions) (c : NestConfig) (source : Interrupt) :
    (Progress.start (o.vectorMode && source == .external)).finishes (vectorHandler o c source) =
      true := by
  obtain ⟨vectorMode, nest⟩ := o
  cases source with
  | external =>
    cases vectorMode with
    | true => cases nest <;> rfl
    | false => cases nest <;> rfl
  | software => cases vectorMode <;> rfl
  | timer => cases vectorMode <;> rfl

section Step

variable {o : PlicOptions} {c : NestConfig} {s s' : VectorHart}

theorem interrupt_plicInv {source : Interrupt} {src : Nat}
    (h : vectorStep o c s (.interrupt source src) = some s') (hi : PlicInv s) : PlicInv s' := by
  cases h
  refine ⟨⟨handler_finishes o c source, nofun, hi.sound⟩, hi.counter, ?_⟩
  cases hclaims : o.vectorMode && source == .external with
  | true =>
    rw [if_pos rfl, List.map_append]
    exact stillOpen_enter hi.accesses src
  | false => exact hi.accesses

theorem mret_plicInv (h : vectorStep o c s .mret = some s') (hi : PlicInv s) : PlicInv s' := by
  obtain ⟨frames, counter, accesses⟩ := s
  cases frames with
  | nil => cases h
  | cons f rest =>
    obtain ⟨hfinishes, -, hrest⟩ := hi.sound
    cases htodo : f.todo with
    | cons st todo => simp [vectorStep, htodo] at h
    | nil =>
      simp only [vectorStep, htodo, Option.some.injEq] at h
      subst h
      rw [htodo] at hfinishes
      simp only [Progress.finishes, Bool.and_eq_true, Bool.not_eq_true'] at hfinishes
      obtain ⟨hopen, hcounted⟩ := hfinishes
      refine ⟨hrest, ?_, ?_⟩
      · have hcounter := hi.counter
        rwa [countedFrames, List.countP_cons_of_neg (by simp [hcounted])] at hcounter
      · have haccesses := hi.accesses
        rwa [openSources, List.filter_cons_of_neg (by simp [hopen])] at haccesses

/-- A statement in its place: what the running handler then holds agrees with the counter, and the
accesses with what is open. -/
theorem TopInv.exec {f : VectorFrame} {rest : List VectorFrame} {counter : Nat}
    {accesses : List PlicAccess} {st : VectorStmt} {todo : List VectorStmt} (src : Nat)
    (hi : TopInv f rest counter accesses) (htodo : f.todo = st :: todo) :
    TopInv
      { (st.exec src f counter accesses).1 with
        todo
        progress := (f.progress.after st).getD f.progress }
      rest (st.exec src f counter accesses).2.1 (st.exec src f counter accesses).2.2 := by
  have hfinishes := hi.finishes
  rw [htodo] at hfinishes
  obtain ⟨p, hp, hdone⟩ := Progress.after_of_finishes hfinishes
  have hfresh := hi.fresh
  have hcounter := hi.counter
  have haccesses := hi.accesses
  rw [hp, Option.getD_some]
  cases st with
  | other st =>
    cases hp
    exact ⟨hdone, hfresh, hi.waiting, hcounter, haccesses⟩
  | isr =>
    simp only [Progress.after, Option.ite_none_right_eq_some, Option.some.injEq] at hp
    obtain ⟨-, rfl⟩ := hp
    exact ⟨hdone, hfresh, hi.waiting, hcounter, haccesses⟩
  | claim =>
    simp only [Progress.after, Option.ite_none_left_eq_some, Option.some.injEq, Bool.or_eq_true,
      not_or, Bool.not_eq_true] at hp
    obtain ⟨⟨hclaimed, hcompleted⟩, rfl⟩ := hp
    have hshut : f.progress.isOpen = false := by simp [Progress.isOpen, hclaimed]
    rw [hshut] at haccesses
    refine ⟨hdone, hfresh, hi.waiting, hcounter, ?_⟩
    rw [if_pos (by simp [Progress.isOpen, hcompleted]), VectorStmt.exec, List.map_append]
    exact stillOpen_enter haccesses src
  | complete =>
    simp only [Progress.after, Option.ite_none_right_eq_some, Option.some.injEq] at hp
    obtain ⟨hopen, rfl⟩ := hp
    rw [if_pos hopen] at haccesses
    refine ⟨hdone, hfresh, hi.waiting, hcounter, ?_⟩
    rw [if_neg (by simp [Progress.isOpen]), VectorStmt.exec, List.map_append]
    exact stillOpen_leave haccesses
  | load =>
    cases hp
    exact ⟨hdone, fun _ => hcounter, hi.waiting, hcounter, haccesses⟩
  | storeInc =>
    simp only [Progress.after, Option.ite_none_right_eq_some, Option.some.injEq,
      Bool.and_eq_true, Bool.not_eq_true'] at hp
    obtain ⟨⟨⟨hf, hentered⟩, hleft⟩, rfl⟩ := hp
    have hreg := hfresh hf
    have hout : f.progress.counted = false := by simp [Progress.counted, hentered]
    rw [hout] at hreg
    refine ⟨hdone, nofun, hi.waiting, ?_, haccesses⟩
    rw [if_pos (by simp [Progress.counted, hleft])]
    show (f.reg + 1) % 256 = _
    simp only [Bool.false_eq_true, if_false] at hreg
    omega
  | storeDec =>
    simp only [Progress.after, Option.ite_none_right_eq_some, Option.some.injEq,
      Bool.and_eq_true] at hp
    obtain ⟨⟨hf, hin⟩, rfl⟩ := hp
    have hreg := hfresh hf
    rw [if_pos hin] at hreg
    refine ⟨hdone, nofun, hi.waiting, ?_, haccesses⟩
    rw [if_neg (by simp [Progress.counted])]
    show (f.reg + 255) % 256 = _
    omega

theorem exec_plicInv {src : Nat} (h : vectorStep o c s (.exec src) = some s') (hi : PlicInv s) :
    PlicInv s' := by
  obtain ⟨frames, counter, accesses⟩ := s
  cases frames with
  | nil => cases h
  | cons f rest =>
    cases htodo : f.todo with
    | nil => simp [vectorStep, htodo] at h
    | cons st todo =>
      simp only [vectorStep, htodo, Option.some.injEq] at h
      subst h
      exact (plicInv_cons_iff ..).mpr (((plicInv_cons_iff ..).mp hi).exec src htodo)

theorem vectorStep_plicInv {a : VectorAction} (h : vectorStep o c s a = some s') (hi : PlicInv s) :
    PlicInv s' := by
  cases a with
  | interrupt source src => exact interrupt_plicInv h hi
  | exec src => exact exec_plicInv h hi
  | mret => exact mret_plicInv h hi

end Step

/-- Runs of the handlers from the task context, in which no source is claimed and the counter is
zero. -/
abbrev VectorRun (o : PlicOptions) (c : NestConfig) (acts : List VectorAction) (s : VectorHart) :
    Prop :=
  Run (vectorStep o c) (fun _ _ _ => True) ⟨[], 0, []⟩ acts s

theorem VectorRun.inv {o : PlicOptions} {c : NestConfig} {acts : List VectorAction}
    {s : VectorHart} (run : VectorRun o c acts s) : PlicInv s :=
  run.invariant (P := PlicInv) ⟨trivial, rfl, rfl⟩
    fun _ _ _ hstep _ hi => vectorStep_plicInv hstep hi

theorem bracket_injective : Function.Injective PlicAccess.bracket := by
  intro a b h
  cases a <;> cases b <;> cases h <;> rfl

/-- **Every claim is completed once, the last one first.** However handlers nest and whichever
sources the claims deliver, in vector mode or not: a complete message names the source that was
claimed last of those not completed, each source has been completed as often as claimed except
by the handlers that are still at work on it, and in the task context none is left. -/
theorem plic_claims_nested (o : PlicOptions) (c : NestConfig) (acts : List VectorAction)
    (s : VectorHart) (run : VectorRun o c acts s) :
    stillOpen (s.accesses.map PlicAccess.bracket) = some (openSources s.frames) ∧
    (∀ src, s.accesses.count (.claim src) =
      s.accesses.count (.complete src) + (openSources s.frames).count src) ∧
    (s.frames = [] → ∀ src, s.accesses.count (.claim src) = s.accesses.count (.complete src)) := by
  have hopen := run.inv.accesses
  have hcount : ∀ src, s.accesses.count (.claim src) =
      s.accesses.count (.complete src) + (openSources s.frames).count src := by
    intro src
    have hbrackets := count_enter hopen src
    rwa [show Bracket.enter src = PlicAccess.bracket (.claim src) from rfl,
      show Bracket.leave src = PlicAccess.bracket (.complete src) from rfl,
      List.count_map_of_injective _ _ bracket_injective,
      List.count_map_of_injective _ _ bracket_injective] at hbrackets
  refine ⟨hopen, hcount, fun htask src => ?_⟩
  rw [hcount src, htask]
  rfl

/-- Source 5 interrupts the handler of source 3 between the load and the store of the nesting
counter, and is still in its function. -/
def nestTwo : List VectorAction :=
  [.interrupt .external 0] ++ List.replicate 4 (.exec 0) ++ [.exec 3] ++
    List.replicate 3 (.exec 0) ++ [.interrupt .external 0] ++ List.replicate 4 (.exec 0) ++
    [.exec 5] ++ List.replicate 4 (.exec 0)

theorem plic_claims_nested_two :
    ∃ s, VectorRun ⟨false, some ⟨true, true, true, true, true, true, true, true⟩⟩
        ⟨true, true, true, true, true, true, true, true⟩ nestTwo s ∧
      s.accesses = [.claim 3, .claim 5] ∧
      stillOpen (s.accesses.map PlicAccess.bracket) = some (openSources s.frames) := by
  have hrun : ∃ s, VectorRun ⟨false, some ⟨true, true, true, true, true, true, true, true⟩⟩
      ⟨true, true, true, true, true, true, true, true⟩ nestTwo s ∧
      s.accesses = [.claim 3, .claim 5] := by
    apply exists_run_of_follow (fun s : VectorHart => s.accesses = [.claim 3, .claim 5])
    decide +kernel
  obtain ⟨s, run, haccesses⟩ := hrun
  exact ⟨s, run, haccesses, (plic_claims_nested _ _ _ s run).1⟩

/-- **The nesting counter tells the truth**, unless the registered functions that are nested are a
positive multiple of 256: the load and the store of each change of it may be far apart, but
whatever comes between them puts the counter back. -/
theorem tlkPlicIsInIsr_truthful (o : PlicOptions) (c : NestConfig) (acts : List VectorAction)
    (s : VectorHart) (run : VectorRun o c acts s) :
    tlkPlicIsInIsr s = s.inIsr ↔
      countedFrames s.frames = 0 ∨ countedFrames s.frames % 256 ≠ 0 := by
  have hcounter := run.inv.counter
  have hany : s.inIsr = decide (0 < countedFrames s.frames) := by
    rw [VectorHart.inIsr, countedFrames, Bool.eq_iff_iff, List.any_eq_true, decide_eq_true_eq,
      List.countP_pos_iff]
  have hanswer : tlkPlicIsInIsr s = decide (0 < s.counter) := by
    unfold tlkPlicIsInIsr
    split <;> simp_all
  rw [hanswer, hany, hcounter, decide_eq_decide]
  omega

theorem tlkPlicIsInIsr_truthful_two :
    ∃ s, VectorRun ⟨false, some ⟨true, true, true, true, true, true, true, true⟩⟩
        ⟨true, true, true, true, true, true, true, true⟩ nestTwo s ∧
      s.counter = 1 ∧ tlkPlicIsInIsr s = s.inIsr := by
  have hrun : ∃ s, VectorRun ⟨false, some ⟨true, true, true, true, true, true, true, true⟩⟩
      ⟨true, true, true, true, true, true, true, true⟩ nestTwo s ∧
      (s.counter = 1 ∧ countedFrames s.frames = 1) := by
    apply exists_run_of_follow (fun s : VectorHart => s.counter = 1 ∧ countedFrames s.frames = 1)
    decide +kernel
  obtain ⟨s, run, hcounter, hone⟩ := hrun
  exact ⟨s, run, hcounter,
    (tlkPlicIsInIsr_truthful _ _ _ s run).mpr (.inr (by rw [hone]; decide))⟩

end UniSdk.Core
