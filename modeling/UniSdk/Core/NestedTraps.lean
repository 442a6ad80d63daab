import UniSdk.Core.Interrupts
import UniSdk.Library.Runs
import Mathlib.Logic.Function.Basic

/-!
# Nested interrupt handlers

The three handlers that may nest, one CSR access at a time, on a hart that takes an interrupt
wherever it is enabled. A handler saves its context and restores it within windows in which
interrupts are off; what is known of each register at each statement is computed along the
handler's text, and carried through every nesting by the frames that wait.
-/

namespace UniSdk.Core

open Library.Runs

/-- The registers of a nested context. -/
structure Csrs where
  mepc : Nat
  mie : Mie
  mstatus : Mstatus
  mxstatus : Nat
  deriving DecidableEq

inductive Csr
  | mepc
  | mie
  | mstatus
  | mxstatus
  deriving DecidableEq, Repr

namespace Csrs

/-- `dst` with the register `r` of `src`. -/
def copy (r : Csr) (src dst : Csrs) : Csrs :=
  match r with
  | .mepc => { dst with mepc := src.mepc }
  | .mie => { dst with mie := src.mie }
  | .mstatus => { dst with mstatus := src.mstatus }
  | .mxstatus => { dst with mxstatus := src.mxstatus }

def Same (r : Csr) (c d : Csrs) : Prop :=
  match r with
  | .mepc => c.mepc = d.mepc
  | .mie => c.mie = d.mie
  | .mstatus => c.mstatus = d.mstatus
  | .mxstatus => c.mxstatus = d.mxstatus

theorem eq_of_same {c d : Csrs} (h : ∀ r, Same r c d) : c = d := by
  have hmepc : c.mepc = d.mepc := h .mepc
  have hmie : c.mie = d.mie := h .mie
  have hmstatus : c.mstatus = d.mstatus := h .mstatus
  have hmxstatus : c.mxstatus = d.mxstatus := h .mxstatus
  cases c
  cases d
  simp_all

theorem copy_same (r : Csr) (src dst : Csrs) : Same r (copy r src dst) src := by
  cases r <;> rfl

/-- A copied register leaves the others. -/
theorem copy_other {r q : Csr} (h : q ≠ r) (src dst : Csrs) : Same q (copy r src dst) dst := by
  cases r <;> cases q <;> first | rfl | exact absurd rfl h

theorem Same.trans {r : Csr} {c d e : Csrs} (h : Same r c d) (h' : Same r d e) : Same r c e := by
  cases r <;> exact Eq.trans h h'

/-- Where the source of a copy agrees with `entry` in the copied register, the copy agrees with it
in that register and wherever the target did. -/
theorem copied_same {p : Csr → Bool} {r : Csr} {src dst entry : Csrs} (hr : Same r src entry)
    (h : ∀ q, p q = true → Same q dst entry) (q : Csr)
    (hq : Function.update p r true q = true) : Same q (copy r src dst) entry := by
  by_cases hqr : q = r
  · subst hqr
    exact (copy_same q src dst).trans hr
  · rw [Function.update_of_ne hqr] at hq
    exact (copy_other hqr src dst).trans (h q hq)

end Csrs

/-- What traps do to MXSTATUS. -/
structure Hardware where
  mxstatusTrap : Nat → Nat
  mxstatusMret : Nat → Nat

def Csrs.trapEntry (hw : Hardware) (priv : Privilege) (pc : Nat) (c : Csrs) : Csrs where
  mepc := pc
  mie := c.mie
  mstatus := c.mstatus.trapEntry priv
  mxstatus := hw.mxstatusTrap c.mxstatus

def Csrs.mret (hw : Hardware) (c : Csrs) : Csrs :=
  { c with mstatus := c.mstatus.mret, mxstatus := hw.mxstatusMret c.mxstatus }

/-- The options `..._NEST_...`: which interrupts each handler lets in. -/
structure NestConfig where
  mtimerNestPlicSw : Bool
  mtimerNestPlic : Bool
  plicSwNestPlicSw : Bool
  plicSwNestMtimer : Bool
  plicSwNestPlic : Bool
  plicNestPlicSw : Bool
  plicNestMtimer : Bool
  plicNestPlic : Bool

/-- `TLK_MTIMER_MIE_MASK`. -/
def tlkMtimerMieMask (c : NestConfig) : Mie := ⟨c.mtimerNestPlicSw, false, c.mtimerNestPlic⟩

/-- `TLK_PLIC_SW_MIE_MASK`. -/
def tlkPlicSwMieMask (c : NestConfig) : Mie :=
  ⟨c.plicSwNestPlicSw, c.plicSwNestMtimer, c.plicSwNestPlic⟩

/-- `TLK_PLIC_MIE_MASK`. -/
def tlkPlicMieMask (c : NestConfig) : Mie := ⟨c.plicNestPlicSw, c.plicNestMtimer, c.plicNestPlic⟩

/-- A statement of a handler. The claim and the complete message access the controller only. -/
inductive HandlerStmt
  | saveCsr (r : Csr)
  | restoreCsr (r : Csr)
  | claim
  | maskMie (mask : Mie)
  | setMstatusMie
  | callback
  | complete
  | clearMstatusMie
  deriving DecidableEq

def tlkCoreSaveNestedContext : List HandlerStmt :=
  [.saveCsr .mepc, .saveCsr .mie, .saveCsr .mstatus, .saveCsr .mxstatus]

def tlkCoreRestoreNestedContext : List HandlerStmt :=
  [.restoreCsr .mie, .restoreCsr .mstatus, .restoreCsr .mepc, .restoreCsr .mxstatus]

def tlkMtimerIrqHandle (c : NestConfig) : List HandlerStmt :=
  tlkCoreSaveNestedContext ++
    [.maskMie (tlkMtimerMieMask c), .setMstatusMie, .callback, .clearMstatusMie] ++
    tlkCoreRestoreNestedContext

def tlkPlicSwHandle (c : NestConfig) : List HandlerStmt :=
  tlkCoreSaveNestedContext ++
    [.claim, .maskMie (tlkPlicSwMieMask c), .setMstatusMie, .callback, .complete,
      .clearMstatusMie] ++
    tlkCoreRestoreNestedContext

def tlkPlicHandle (c : NestConfig) : List HandlerStmt :=
  tlkCoreSaveNestedContext ++
    [.claim, .maskMie (tlkPlicMieMask c), .setMstatusMie, .callback, .complete,
      .clearMstatusMie] ++
    tlkCoreRestoreNestedContext

/-- `tlk_trap_entry` for an interrupt. -/
def interruptHandler (c : NestConfig) : Interrupt → List HandlerStmt
  | .timer => tlkMtimerIrqHandle c
  | .software => tlkPlicSwHandle c
  | .external => tlkPlicHandle c

/-- A handler in execution: its locals and the statements to come. The rest is history, the
interrupted context. -/
structure TrapFrame where
  caller : Privilege
  pc : Nat
  before : Csrs
  saved : Csrs
  todo : List HandlerStmt

/-- The registers at the handler's entry. -/
def TrapFrame.entry (hw : Hardware) (f : TrapFrame) : Csrs :=
  f.before.trapEntry hw f.caller f.pc

/-- The handler on top of `frames` runs, or the task context when there is none. -/
structure TrapHart where
  csrs : Csrs
  priv : Privilege
  frames : List TrapFrame

/-- `write` is a write of MIE and of MSTATUS.MIE, by the task context or by the callback that
runs. -/
inductive TrapAction
  | interrupt (source : Interrupt) (pc : Nat)
  | write (mie : Mie) (en : Bool)
  | exec
  | mret
  deriving DecidableEq

/-- One statement: the locals and the registers after it. `callback` is the return. -/
def HandlerStmt.exec (saved csrs : Csrs) : HandlerStmt → Csrs × Csrs
  | .saveCsr r => (csrs.copy r saved, csrs)
  | .restoreCsr r => (saved, saved.copy r csrs)
  | .maskMie mask => (saved, { csrs with mie := mask.and csrs.mie })
  | .setMstatusMie => (saved, { csrs with mstatus := { csrs.mstatus with mie := true } })
  | .clearMstatusMie => (saved, { csrs with mstatus := { csrs.mstatus with mie := false } })
  | .claim | .callback | .complete => (saved, csrs)

/-- Locals that have not been assigned. -/
def Csrs.unassigned : Csrs := ⟨0, ⟨false, false, false⟩, ⟨false, false, .user⟩, 0⟩

namespace TrapHart

/-- Below machine mode MSTATUS.MIE does not matter. -/
def takes (s : TrapHart) (source : Interrupt) : Bool :=
  (s.csrs.mstatus.mie || s.priv == .user) && s.csrs.mie.enabled source

/-- The task context or a callback runs. -/
def writes (s : TrapHart) : Bool :=
  match s.frames with
  | [] => true
  | f :: _ => f.todo.head? == some .callback

end TrapHart

def trapStep (hw : Hardware) (c : NestConfig) (s : TrapHart) : TrapAction → Option TrapHart
  | .interrupt source pc =>
    if s.takes source then
      some
        { csrs := s.csrs.trapEntry hw s.priv pc
          priv := .machine
          frames := ⟨s.priv, pc, s.csrs, .unassigned, interruptHandler c source⟩ :: s.frames }
    else none
  | .write mie en =>
    if s.writes then
      some { s with csrs := { s.csrs with mie, mstatus := { s.csrs.mstatus with mie := en } } }
    else none
  | .exec =>
    match s.frames with
    | f :: rest =>
      match f.todo with
      | st :: todo =>
        some
          { s with
            csrs := (st.exec f.saved s.csrs).2
            frames := { f with saved := (st.exec f.saved s.csrs).1, todo } :: rest }
      | [] => none
    | [] => none
  | .mret =>
    match s.frames with
    | f :: rest =>
      match f.todo with
      | [] => some ⟨s.csrs.mret hw, s.csrs.mstatus.mpp, rest⟩
      | _ :: _ => none
    | [] => none

/-! ## What a handler knows of the registers -/

/-- Whether interrupts are off, and which registers and which locals hold the values of the
handler's entry. -/
structure Known where
  masked : Bool
  same : Csr → Bool
  saved : Csr → Bool

namespace Known

def atEntry : Known where
  masked := true
  same := fun _ => true
  saved := fun _ => false

/-- Interrupts and the callback may change every register, the locals are kept. -/
def opened (k : Known) : Known := { k with masked := false, same := fun _ => false }

/-- What is known after a statement. A register is saved where it still holds its entry value,
and restored with interrupts off from a local that does. -/
def after (k : Known) : HandlerStmt → Option Known
  | .saveCsr r => if k.same r then some { k with saved := Function.update k.saved r true } else none
  | .restoreCsr r =>
    if k.masked && k.saved r then some { k with same := Function.update k.same r true } else none
  | .claim | .complete => some k
  | .maskMie _ => some { k with same := Function.update k.same .mie false }
  | .setMstatusMie | .callback => some k.opened
  | .clearMstatusMie => some { k with masked := true, same := fun _ => false }

/-- The statements restore every register. -/
def restores (k : Known) : List HandlerStmt → Bool
  | [] => k.same .mepc && k.same .mie && k.same .mstatus && k.same .mxstatus
  | st :: todo =>
    match k.after st with
    | some k' => k'.restores todo
    | none => false

/-- The knowledge is true of the locals and the registers of a handler. -/
structure Holds (k : Known) (entry saved csrs : Csrs) : Prop where
  masked : k.masked = true → csrs.mstatus.mie = false
  opened : k.masked = false → ∀ r, k.same r = false
  same : ∀ r, k.same r = true → Csrs.Same r csrs entry
  saved : ∀ r, k.saved r = true → Csrs.Same r saved entry

variable {k k' : Known} {entry saved csrs csrs' : Csrs} {st : HandlerStmt}
  {todo : List HandlerStmt}

theorem holds_atEntry (h : entry.mstatus.mie = false) (saved : Csrs) :
    atEntry.Holds entry saved entry where
  masked := fun _ => h
  opened := fun h => by cases h
  same := fun r _ => by cases r <;> rfl
  saved := fun _ h => by cases h

/-- While interrupts are on, any change of the registers keeps what is known. -/
theorem Holds.changed (h : k.Holds entry saved csrs) (hk : k.masked = false) (csrs' : Csrs) :
    k.Holds entry saved csrs' where
  masked := fun hm => by rw [hk] at hm; cases hm
  opened := h.opened
  same := fun r hr => by rw [h.opened hk r] at hr; cases hr
  saved := h.saved

theorem Holds.open_any (h : k.Holds entry saved csrs) (csrs' : Csrs) :
    k.opened.Holds entry saved csrs' where
  masked := fun hm => by cases hm
  opened := fun _ _ => rfl
  same := fun _ hr => by cases hr
  saved := h.saved

/-- A statement makes true what is known after it. -/
theorem Holds.exec (h : k.Holds entry saved csrs) (hentry : entry.mstatus.mie = false)
    (hafter : k.after st = some k') :
    k'.Holds entry (st.exec saved csrs).1 (st.exec saved csrs).2 := by
  cases st with
  | saveCsr r =>
    rw [after] at hafter
    split at hafter
    · next hr =>
      cases hafter
      exact ⟨h.masked, h.opened, h.same, Csrs.copied_same (h.same r hr) h.saved⟩
    · cases hafter
  | restoreCsr r =>
    rw [after] at hafter
    split at hafter
    · next hr =>
      cases hafter
      obtain ⟨hmasked, hsaved⟩ := Bool.and_eq_true_iff.mp hr
      have hcopied := (Csrs.copy_same r saved csrs).trans (h.saved r hsaved)
      refine ⟨fun _ => ?_, fun hm => ?_, Csrs.copied_same (h.saved r hsaved) h.same, h.saved⟩
      · cases r with
        | mstatus =>
          have hmstatus : (saved.copy .mstatus csrs).mstatus = entry.mstatus := hcopied
          show (saved.copy .mstatus csrs).mstatus.mie = false
          rw [hmstatus]
          exact hentry
        | _ => exact h.masked hmasked
      · rw [hmasked] at hm
        cases hm
    · cases hafter
  | claim | complete => cases hafter; exact h
  | maskMie mask =>
    cases hafter
    refine ⟨h.masked, fun hm r => ?_, fun q hq => ?_, h.saved⟩
    · dsimp only
      by_cases hr : r = .mie
      · rw [hr, Function.update_self]
      · rw [Function.update_of_ne hr]
        exact h.opened hm r
    · dsimp only at hq
      have hq' : q ≠ .mie := fun hmie => by rw [hmie, Function.update_self] at hq; cases hq
      rw [Function.update_of_ne hq'] at hq
      cases q with
      | mie => exact absurd rfl hq'
      | _ => exact h.same _ hq
  | setMstatusMie | callback => cases hafter; exact h.open_any _
  | clearMstatusMie =>
    cases hafter
    exact ⟨fun _ => rfl, fun _ _ => rfl, nofun, h.saved⟩

theorem Holds.eq_entry (h : k.Holds entry saved csrs) (hk : k.restores [] = true) :
    csrs = entry := by
  simp only [restores, Bool.and_eq_true] at hk
  obtain ⟨⟨⟨hmepc, hmie⟩, hmstatus⟩, hmxstatus⟩ := hk
  apply Csrs.eq_of_same
  intro r
  apply h.same
  cases r
  · exact hmepc
  · exact hmie
  · exact hmstatus
  · exact hmxstatus

theorem after_of_restores (h : k.restores (st :: todo) = true) :
    ∃ k', k.after st = some k' ∧ k'.restores todo = true := by
  rw [restores] at h
  cases hk : k.after st with
  | none => rw [hk] at h; cases h
  | some k' =>
    rw [hk] at h
    exact ⟨k', rfl, h⟩

end Known

/-- The three handlers save in time and restore everything. -/
theorem handler_restores (c : NestConfig) (source : Interrupt) :
    Known.atEntry.restores (interruptHandler c source) = true := by
  cases source <;> rfl

/-! ## Every nesting -/

/-- What the frame knows holds of its locals and of the registers, and is enough to restore
them. -/
def TrapFrame.Sound (hw : Hardware) (f : TrapFrame) (csrs : Csrs) : Prop :=
  ∃ k : Known, k.restores f.todo = true ∧ k.Holds (f.entry hw) f.saved csrs

/-- The running handler knows the registers; a handler that waits will restore them whatever
they are when it goes on. Only the outermost one can have interrupted user mode. -/
inductive TrapInv (hw : Hardware) (s : TrapHart) : Prop
  | task (frames : s.frames = [])
  | handler (f : TrapFrame) (rest : List TrapFrame) (frames : s.frames = f :: rest)
      (priv : s.priv = .machine) (running : f.Sound hw s.csrs)
      (waiting : ∀ g ∈ rest, ∀ csrs, g.Sound hw csrs)
      (nested : ∀ g ∈ (f :: rest).dropLast, g.caller = .machine)

section Step

variable {hw : Hardware} {c : NestConfig} {s s' : TrapHart} {f : TrapFrame}

/-- A handler that can be interrupted restores the registers whatever happens to them. -/
theorem TrapFrame.Sound.interrupted {csrs : Csrs} (h : f.Sound hw csrs)
    (hmie : csrs.mstatus.mie = true) (csrs' : Csrs) : f.Sound hw csrs' := by
  obtain ⟨k, hrestores, hk⟩ := h
  have hopen : k.masked = false := by
    cases hm : k.masked with
    | false => rfl
    | true => rw [hk.masked hm] at hmie; cases hmie
  exact ⟨k, hrestores, hk.changed hopen csrs'⟩

theorem TrapFrame.Sound.inCallback {csrs : Csrs} (h : f.Sound hw csrs)
    (hf : f.todo.head? = some .callback) (csrs' : Csrs) : f.Sound hw csrs' := by
  obtain ⟨k, hrestores, hk⟩ := h
  cases htodo : f.todo with
  | nil => rw [htodo] at hf; cases hf
  | cons st todo =>
    rw [htodo] at hf hrestores
    cases hf
    refine ⟨k.opened, ?_, hk.open_any csrs'⟩
    rw [htodo]
    exact hrestores

theorem TrapFrame.Sound.exec {csrs : Csrs} {st : HandlerStmt} {todo : List HandlerStmt}
    (h : f.Sound hw csrs) (htodo : f.todo = st :: todo) :
    TrapFrame.Sound hw { f with saved := (st.exec f.saved csrs).1, todo }
      (st.exec f.saved csrs).2 := by
  obtain ⟨k, hrestores, hk⟩ := h
  rw [htodo] at hrestores
  obtain ⟨k', hafter, hrest⟩ := Known.after_of_restores hrestores
  exact ⟨k', hrest, hk.exec rfl hafter⟩

theorem TrapFrame.Sound.eq_entry {csrs : Csrs} (h : f.Sound hw csrs) (htodo : f.todo = []) :
    csrs = f.entry hw := by
  obtain ⟨k, hrestores, hk⟩ := h
  rw [htodo] at hrestores
  exact hk.eq_entry hrestores

theorem interrupt_inv {source : Interrupt} {pc : Nat}
    (h : trapStep hw c s (.interrupt source pc) = some s') (hi : TrapInv hw s) :
    TrapInv hw s' := by
  rw [trapStep] at h
  split at h
  · next htakes =>
    cases h
    have hsound : TrapFrame.Sound hw
        ⟨s.priv, pc, s.csrs, .unassigned, interruptHandler c source⟩
        (s.csrs.trapEntry hw s.priv pc) :=
      ⟨.atEntry, handler_restores c source, Known.holds_atEntry rfl _⟩
    refine .handler _ _ rfl rfl hsound (fun g hg csrs => ?_) (fun g hg => ?_)
    · cases hi with
      | task frames => rw [frames] at hg; cases hg
      | handler f rest frames priv running waiting nested =>
        rw [frames] at hg
        rcases List.mem_cons.mp hg with hf | hrest
        · subst hf
          have hmie : s.csrs.mstatus.mie = true := by
            simp [TrapHart.takes, priv] at htakes
            exact htakes.1
          exact running.interrupted hmie csrs
        · exact waiting g hrest csrs
    · cases hi with
      | task frames => rw [frames] at hg; cases hg
      | handler f rest frames priv running waiting nested =>
        rw [frames, List.dropLast_cons_of_ne_nil (List.cons_ne_nil f rest)] at hg
        rcases List.mem_cons.mp hg with hnew | hold
        · rw [hnew]
          exact priv
        · exact nested g hold
  · cases h

theorem write_inv {mie : Mie} {en : Bool} (h : trapStep hw c s (.write mie en) = some s')
    (hi : TrapInv hw s) : TrapInv hw s' := by
  rw [trapStep] at h
  split at h
  · next hwrites =>
    cases h
    cases hi with
    | task frames => exact .task frames
    | handler f rest frames priv running waiting nested =>
      have hcallback : f.todo.head? = some .callback := by
        simpa [TrapHart.writes, frames] using hwrites
      exact .handler f rest frames priv (running.inCallback hcallback _) waiting nested
  · cases h

theorem exec_inv (h : trapStep hw c s .exec = some s') (hi : TrapInv hw s) : TrapInv hw s' := by
  cases hi with
  | task frames => simp [trapStep, frames] at h
  | handler f rest frames priv running waiting nested =>
    cases htodo : f.todo with
    | nil => simp [trapStep, frames, htodo] at h
    | cons st todo =>
      simp only [trapStep, frames, htodo] at h
      cases h
      refine .handler _ rest rfl priv (running.exec htodo) waiting (fun g hg => ?_)
      cases rest with
      | nil => cases hg
      | cons f' rest =>
        rw [List.dropLast_cons_of_ne_nil (List.cons_ne_nil f' rest)] at hg nested
        rcases List.mem_cons.mp hg with hnew | hold
        · rw [hnew]
          exact nested f List.mem_cons_self
        · exact nested g (List.mem_cons_of_mem _ hold)

/-- The return from a handler that nests goes to the interrupted context. -/
theorem mret_resumes (h : trapStep hw c s .mret = some s') (hi : TrapInv hw s) :
    ∃ f rest, s.frames = f :: rest ∧ s'.frames = rest ∧ s'.priv = f.caller ∧
      s'.csrs = (f.before.trapEntry hw f.caller f.pc).mret hw := by
  cases hi with
  | task frames => simp [trapStep, frames] at h
  | handler f rest frames priv running waiting nested =>
    cases htodo : f.todo with
    | cons st todo => simp [trapStep, frames, htodo] at h
    | nil =>
      simp only [trapStep, frames, htodo] at h
      cases h
      have hentry := running.eq_entry htodo
      refine ⟨f, rest, frames, rfl, ?_, ?_⟩
      · show s.csrs.mstatus.mpp = f.caller
        rw [hentry]
        rfl
      · show s.csrs.mret hw = _
        rw [hentry]
        rfl

theorem mret_inv (h : trapStep hw c s .mret = some s') (hi : TrapInv hw s) : TrapInv hw s' := by
  obtain ⟨f, rest, frames, hrest, hpriv, -⟩ := mret_resumes h hi
  cases hi with
  | task hnone => rw [hnone] at frames; cases frames
  | handler g rest' frames' priv running waiting nested =>
    rw [frames] at frames'
    cases frames'
    cases rest with
    | nil => exact .task hrest
    | cons f' rest =>
      rw [List.dropLast_cons_of_ne_nil (List.cons_ne_nil f' rest)] at nested
      refine .handler f' rest hrest ?_ (waiting f' List.mem_cons_self _)
        (fun g hg => waiting g (List.mem_cons_of_mem _ hg))
        (fun g hg => nested g (List.mem_cons_of_mem _ hg))
      rw [hpriv]
      exact nested f List.mem_cons_self

theorem trapStep_inv {a : TrapAction} (h : trapStep hw c s a = some s') (hi : TrapInv hw s) :
    TrapInv hw s' := by
  cases a with
  | interrupt source pc => exact interrupt_inv h hi
  | write mie en => exact write_inv h hi
  | exec => exact exec_inv h hi
  | mret => exact mret_inv h hi

end Step

/-- Runs of the hart from the task context. -/
abbrev TrapRun (hw : Hardware) (c : NestConfig) (s₀ : TrapHart) (acts : List TrapAction)
    (s : TrapHart) : Prop :=
  Run (trapStep hw c) (fun _ _ _ => True) s₀ acts s

/-- However interrupts nest and whatever the callbacks write, a handler that has executed its
last statement leaves MEPC, MIE, MSTATUS and MXSTATUS as it found them. -/
theorem nested_handlers_restore (hw : Hardware) (c : NestConfig) (s₀ s : TrapHart)
    (acts : List TrapAction) (f : TrapFrame) (rest : List TrapFrame) (hs₀ : s₀.frames = [])
    (run : TrapRun hw c s₀ acts s) (htop : s.frames = f :: rest) (hdone : f.todo = []) :
    s.csrs = f.entry hw := by
  have hinv := run.invariant (P := TrapInv hw) (.task hs₀)
    fun _ _ _ hstep _ hi => trapStep_inv hstep hi
  cases hinv with
  | task frames => rw [frames] at htop; cases htop
  | handler g rest' frames priv running waiting nested =>
    rw [frames] at htop
    cases htop
    exact running.eq_entry hdone

/-- Three handlers deep from user mode: the machine timer's callback enables interrupts it had
masked, the PLIC SW handler is interrupted before its callback, and the PLIC handler runs
through. -/
def nestThree : List TrapAction :=
  [.interrupt .timer 100] ++ List.replicate 6 .exec ++
    [.write ⟨true, true, true⟩ true, .interrupt .software 200] ++ List.replicate 7 .exec ++
    [.interrupt .external 300] ++ List.replicate 14 .exec

theorem nested_handlers_restore_three :
    ∃ s f rest,
      TrapRun ⟨id, id⟩ ⟨true, false, false, false, true, false, false, false⟩
        ⟨⟨0, ⟨true, true, true⟩, ⟨false, false, .machine⟩, 5⟩, .user, []⟩ nestThree s ∧
      s.frames = f :: rest ∧ rest.length = 2 ∧ s.csrs = f.entry ⟨id, id⟩ := by
  have hrun : ∃ s,
      TrapRun ⟨id, id⟩ ⟨true, false, false, false, true, false, false, false⟩
        ⟨⟨0, ⟨true, true, true⟩, ⟨false, false, .machine⟩, 5⟩, .user, []⟩ nestThree s ∧
      s.frames.map (·.todo.length) = [0, 7, 6] := by
    apply exists_run_of_follow (fun s : TrapHart => s.frames.map (·.todo.length) = [0, 7, 6])
    decide +kernel
  obtain ⟨s, run, hlengths⟩ := hrun
  cases hframes : s.frames with
  | nil => rw [hframes] at hlengths; cases hlengths
  | cons f rest =>
    rw [hframes, List.map_cons, List.cons.injEq] at hlengths
    have hrest := congrArg List.length hlengths.2
    rw [List.length_map] at hrest
    have hdone := List.eq_nil_of_length_eq_zero hlengths.1
    exact ⟨s, f, rest, run, hframes, hrest,
      nested_handlers_restore _ _ _ s _ f rest rfl run hframes hdone⟩

end UniSdk.Core
