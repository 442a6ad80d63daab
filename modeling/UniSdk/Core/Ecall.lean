import UniSdk.Core.NestedTraps
import UniSdk.Library.Words

/-!
# The privilege an ecall returns with

`tlk_trap_entry` for an ecall with `CONFIG_TLK_TRAP_ECALL_NEST` and a registered callback. The
callback chooses the privilege in MSTATUS.MPP while interrupts are on, and every interrupt that
is taken and returned from resets that field to user mode. The choice survives unless an
interrupt falls between the callback's last request and the read of MPP.
-/

namespace UniSdk.Core

open Library.Runs Library.Words

/-- `csrs` after an interrupt at `pc` has been handled and returned from. A handler that does
not restore MIE leaves `mie`. -/
def Csrs.interrupted (hw : Hardware) (pc : Nat) (mie : Mie) (csrs : Csrs) : Csrs :=
  { (csrs.trapEntry hw .machine pc).mret hw with mie }

/-- The handlers that nest are such interrupts, of MIE as it was. -/
theorem nested_handler_interrupts {hw : Hardware} {c : NestConfig} {s s' : TrapHart}
    {f : TrapFrame} {rest : List TrapFrame} (h : trapStep hw c s .mret = some s')
    (hi : TrapInv hw s) (htop : s.frames = f :: rest) (hcaller : f.caller = .machine) :
    s'.csrs = f.before.interrupted hw f.pc f.before.mie := by
  obtain ⟨g, rest', frames, -, -, hcsrs⟩ := mret_resumes h hi
  rw [htop] at frames
  cases frames
  rw [hcsrs, hcaller]
  rfl

/-- `csrrs` on MPP. -/
def Mstatus.setMpp (bits : Privilege) (m : Mstatus) : Mstatus :=
  match bits with
  | .machine => { m with mpp := .machine }
  | .user => m

def tlkCoreEnableMmode (m : Mstatus) : Mstatus := m.setMpp .machine

/-- The statements one after the other, on the locals and the registers. -/
def HandlerStmt.execAll (stmts : List HandlerStmt) (locals : Csrs × Csrs) : Csrs × Csrs :=
  stmts.foldl (fun l st => st.exec l.1 l.2) locals

/-- The statement of `tlk_trap_entry` that runs next; `mpp` is its local. -/
inductive EcallLoc
  | saveContext
  | setMstatusMie
  | callback
  | readMpp
  | clearMstatusMie (mpp : Privilege)
  | restoreContext (mpp : Privilege)
  | setMpp (mpp : Privilege)
  | advanceMepc
  | mret
  deriving DecidableEq

/-- MPP has not been read yet. -/
def EcallLoc.beforeRead : EcallLoc → Bool
  | .saveContext | .setMstatusMie | .callback | .readMpp => true
  | _ => false

/-- An ecall being handled. `enabled` and `overtaken` are history: the callback has called
`tlk_core_enable_mmode`, and since its last call an interrupt was taken before MPP was read. -/
structure Ecall where
  csrs : Csrs
  saved : Csrs
  loc : EcallLoc
  enabled : Bool
  overtaken : Bool

/-- `callback` statements are `write` (MIE and MSTATUS.MIE) and `enableMmode`; `exec` is the next
statement of `tlk_trap_entry`, the callback's return included. -/
inductive EcallAction
  | interrupt (source : Interrupt) (pc : Nat) (mie : Mie)
  | write (mie : Mie) (en : Bool)
  | enableMmode
  | exec

def ecallExec (s : Ecall) : Option Ecall :=
  match s.loc with
  | .saveContext =>
    let locals := HandlerStmt.execAll tlkCoreSaveNestedContext (s.saved, s.csrs)
    some { s with saved := locals.1, csrs := locals.2, loc := .setMstatusMie }
  | .setMstatusMie =>
    some { s with
      csrs := (HandlerStmt.setMstatusMie.exec s.saved s.csrs).2
      loc := .callback }
  | .callback => some { s with loc := .readMpp }
  | .readMpp => some { s with loc := .clearMstatusMie s.csrs.mstatus.mpp }
  | .clearMstatusMie mpp =>
    some { s with
      csrs := (HandlerStmt.clearMstatusMie.exec s.saved s.csrs).2
      loc := .restoreContext mpp }
  | .restoreContext mpp =>
    let locals := HandlerStmt.execAll tlkCoreRestoreNestedContext (s.saved, s.csrs)
    some { s with saved := locals.1, csrs := locals.2, loc := .setMpp mpp }
  | .setMpp mpp =>
    some { s with
      csrs := { s.csrs with mstatus := s.csrs.mstatus.setMpp mpp }
      loc := .advanceMepc }
  | .advanceMepc =>
    some { s with csrs := { s.csrs with mepc := u32 (s.csrs.mepc + 4) }, loc := .mret }
  | .mret => none

def ecallStep (hw : Hardware) (s : Ecall) : EcallAction → Option Ecall
  | .interrupt source pc mie =>
    if s.csrs.mstatus.mie && s.csrs.mie.enabled source then
      some { s with
        csrs := s.csrs.interrupted hw pc mie
        overtaken := s.overtaken || s.loc.beforeRead }
    else none
  | .write mie en =>
    if s.loc = .callback then
      some { s with csrs := { s.csrs with mie, mstatus := { s.csrs.mstatus with mie := en } } }
    else none
  | .enableMmode =>
    if s.loc = .callback then
      some { s with
        csrs := { s.csrs with mstatus := tlkCoreEnableMmode s.csrs.mstatus }
        enabled := true
        overtaken := false }
    else none
  | .exec => ecallExec s

/-- The first statement, after the ecall at `pc` from the privilege `caller`. -/
def Ecall.start (hw : Hardware) (caller : Privilege) (pc : Nat) (csrs : Csrs) : Ecall where
  csrs := csrs.trapEntry hw caller pc
  saved := .unassigned
  loc := .saveContext
  enabled := false
  overtaken := false

/-- What MPP holds when it is read. -/
def Ecall.chosen (caller : Privilege) (s : Ecall) : Privilege :=
  if s.overtaken then .user else if s.enabled then .machine else caller

/-- At each statement, with `entry` the registers at the first one. -/
def EcallInv (caller : Privilege) (entry : Csrs) (s : Ecall) : Prop :=
  match s.loc with
  | .saveContext => s.csrs = entry ∧ s.chosen caller = caller
  | .setMstatusMie => s.csrs = entry ∧ s.saved = entry ∧ s.chosen caller = caller
  | .callback | .readMpp => s.saved = entry ∧ s.csrs.mstatus.mpp = s.chosen caller
  | .clearMstatusMie mpp => s.saved = entry ∧ mpp = s.chosen caller
  | .restoreContext mpp =>
    s.saved = entry ∧ mpp = s.chosen caller ∧ s.csrs.mstatus.mie = false
  | .setMpp mpp => s.csrs = entry ∧ mpp = s.chosen caller
  | .advanceMepc =>
    s.csrs = { entry with mstatus := entry.mstatus.setMpp (s.chosen caller) }
  | .mret =>
    s.csrs =
      { entry with
        mstatus := entry.mstatus.setMpp (s.chosen caller)
        mepc := u32 (entry.mepc + 4) }

section Step

variable {hw : Hardware} {caller : Privilege} {entry : Csrs} {s s' : Ecall}

@[simp] theorem setMpp_mie (bits : Privilege) (m : Mstatus) : (m.setMpp bits).mie = m.mie := by
  cases bits <;> rfl

theorem ecallExec_inv (hcaller : entry.mstatus.mpp = caller) (h : ecallExec s = some s')
    (hi : EcallInv caller entry s) : EcallInv caller entry s' := by
  unfold ecallExec at h
  unfold EcallInv at hi
  cases hloc : s.loc with
  | saveContext =>
    rw [hloc] at h hi
    cases h
    exact ⟨hi.1, hi.1, hi.2⟩
  | setMstatusMie =>
    rw [hloc] at h hi
    cases h
    obtain ⟨hcsrs, hsaved, hchosen⟩ := hi
    refine ⟨hsaved, ?_⟩
    show s.csrs.mstatus.mpp = s.chosen caller
    rw [hcsrs, hchosen, hcaller]
  | callback => rw [hloc] at h hi; cases h; exact hi
  | readMpp => rw [hloc] at h hi; cases h; exact hi
  | clearMstatusMie mpp => rw [hloc] at h hi; cases h; exact ⟨hi.1, hi.2, rfl⟩
  | restoreContext mpp => rw [hloc] at h hi; cases h; exact ⟨hi.1, hi.2.1⟩
  | setMpp mpp =>
    rw [hloc] at h hi
    cases h
    obtain ⟨hcsrs, hmpp⟩ := hi
    show ({ s.csrs with mstatus := s.csrs.mstatus.setMpp mpp } : Csrs) = _
    rw [hcsrs, hmpp]
    rfl
  | advanceMepc =>
    rw [hloc] at h hi
    cases h
    show ({ s.csrs with mepc := u32 (s.csrs.mepc + 4) } : Csrs) = _
    rw [hi]
    rfl
  | mret => rw [hloc] at h; cases h

/-- Interrupts are taken only at the statements between the two windows. -/
theorem interruptible (hentry : entry.mstatus.mie = false) (hi : EcallInv caller entry s)
    (hmie : s.csrs.mstatus.mie = true) :
    s.loc = .callback ∨ s.loc = .readMpp ∨ ∃ mpp, s.loc = .clearMstatusMie mpp := by
  have hmasked : ∀ m : Mstatus, m.mie = false → s.csrs.mstatus = m → False := by
    intro m hm he
    rw [he, hm] at hmie
    cases hmie
  unfold EcallInv at hi
  cases hloc : s.loc with
  | callback => exact .inl rfl
  | readMpp => exact .inr (.inl rfl)
  | clearMstatusMie mpp => exact .inr (.inr ⟨mpp, rfl⟩)
  | saveContext => rw [hloc] at hi; exact (hmasked _ hentry (by rw [hi.1])).elim
  | setMstatusMie => rw [hloc] at hi; exact (hmasked _ hentry (by rw [hi.1])).elim
  | restoreContext mpp => rw [hloc] at hi; exact (hmasked _ hi.2.2 rfl).elim
  | setMpp mpp => rw [hloc] at hi; exact (hmasked _ hentry (by rw [hi.1])).elim
  | advanceMepc =>
    rw [hloc] at hi
    exact (hmasked (entry.mstatus.setMpp (s.chosen caller)) (by simpa) (by rw [hi])).elim
  | mret =>
    rw [hloc] at hi
    exact (hmasked (entry.mstatus.setMpp (s.chosen caller)) (by simpa) (by rw [hi])).elim

theorem interrupt_ecall_inv {source : Interrupt} {pc : Nat} {mie : Mie}
    (hentry : entry.mstatus.mie = false) (h : ecallStep hw s (.interrupt source pc mie) = some s')
    (hi : EcallInv caller entry s) : EcallInv caller entry s' := by
  rw [ecallStep] at h
  split at h
  · next htaken =>
    have hloc := interruptible hentry hi (Bool.and_eq_true_iff.mp htaken).1
    cases h
    rcases hloc with hloc | hloc | ⟨mpp, hloc⟩
    · simp only [EcallInv, hloc] at hi ⊢
      refine ⟨hi.1, ?_⟩
      simp [Ecall.chosen, EcallLoc.beforeRead, Csrs.interrupted, Csrs.mret, Mstatus.mret]
    · simp only [EcallInv, hloc] at hi ⊢
      refine ⟨hi.1, ?_⟩
      simp [Ecall.chosen, EcallLoc.beforeRead, Csrs.interrupted, Csrs.mret, Mstatus.mret]
    · simp only [EcallInv, hloc] at hi ⊢
      refine ⟨hi.1, ?_⟩
      rw [hi.2]
      simp [Ecall.chosen, EcallLoc.beforeRead]
  · cases h

theorem ecallStep_inv {a : EcallAction} (hentry : entry.mstatus.mie = false)
    (hcaller : entry.mstatus.mpp = caller) (h : ecallStep hw s a = some s')
    (hi : EcallInv caller entry s) : EcallInv caller entry s' := by
  cases a with
  | interrupt source pc mie => exact interrupt_ecall_inv hentry h hi
  | write mie en =>
    rw [ecallStep] at h
    split at h
    · next hloc =>
      cases h
      simp only [EcallInv, hloc] at hi ⊢
      exact hi
    · cases h
  | enableMmode =>
    rw [ecallStep] at h
    split at h
    · next hloc =>
      cases h
      simp only [EcallInv, hloc] at hi ⊢
      exact ⟨hi.1, rfl⟩
    · cases h
  | exec => exact ecallExec_inv hcaller h hi

end Step

/-- Runs of `tlk_trap_entry` from an ecall at `pc`. -/
abbrev EcallRun (hw : Hardware) (caller : Privilege) (pc : Nat) (csrs : Csrs)
    (acts : List EcallAction) (s : Ecall) : Prop :=
  Run (ecallStep hw) (fun _ _ _ => True) (.start hw caller pc csrs) acts s

/-- The `mret` that ends the trap goes to the instruction after the ecall, with the privilege
that its caller had or its callback asked for. -/
def Ecall.ReturnsAsChosen (caller : Privilege) (pc : Nat) (s : Ecall) : Prop :=
  (s.csrs.mstatus.mpp = .machine ↔ caller = .machine ∨ s.enabled = true) ∧
    s.csrs.mepc = u32 (pc + 4)

instance (caller : Privilege) (pc : Nat) (s : Ecall) : Decidable (s.ReturnsAsChosen caller pc) :=
  inferInstanceAs (Decidable (_ ∧ _))

/-- An ecall returns as chosen if and only if its caller was in machine mode, its callback never
asked for machine mode, or no interrupt was taken between its last request and the read of
MPP. -/
theorem ecall_returns_as_chosen (hw : Hardware) (caller : Privilege) (pc : Nat) (csrs : Csrs)
    (acts : List EcallAction) (s : Ecall) (run : EcallRun hw caller pc csrs acts s)
    (hret : s.loc = .mret) :
    s.ReturnsAsChosen caller pc ↔
      (caller = .machine ∨ s.enabled = false ∨ s.overtaken = false) := by
  have hstart : EcallInv caller (csrs.trapEntry hw caller pc) (.start hw caller pc csrs) :=
    ⟨rfl, rfl⟩
  have hinv := run.invariant (P := EcallInv caller (csrs.trapEntry hw caller pc)) hstart
    fun _ _ _ hstep _ hi => ecallStep_inv rfl rfl hstep hi
  simp only [EcallInv, hret] at hinv
  have hmepc : s.csrs.mepc = u32 (pc + 4) := by rw [hinv]; rfl
  have hmpp : s.csrs.mstatus.mpp =
      ((csrs.trapEntry hw caller pc).mstatus.setMpp (s.chosen caller)).mpp := by rw [hinv]
  unfold Ecall.ReturnsAsChosen
  rw [hmpp]
  simp only [hmepc, and_true, Ecall.chosen]
  cases caller <;> cases s.enabled <;> cases s.overtaken <;>
    simp [Csrs.trapEntry, Mstatus.trapEntry, Mstatus.setMpp]

/-- The caller's registers: user mode with every interrupt enabled. -/
def userCaller : Csrs := ⟨0, ⟨true, true, true⟩, ⟨true, true, .user⟩, 0⟩

/-- An interrupt, then the request, then the read. -/
def requestLast : List EcallAction :=
  [.exec, .exec, .interrupt .timer 200 ⟨true, true, true⟩, .enableMmode, .exec, .exec, .exec, .exec,
    .exec, .exec]

/-- The request, then an interrupt, then the read. -/
def requestOvertaken : List EcallAction :=
  [.exec, .exec, .enableMmode, .interrupt .timer 200 ⟨true, true, true⟩, .exec, .exec, .exec, .exec,
    .exec, .exec]

theorem ecall_returns_as_chosen_once :
    ∃ s, EcallRun ⟨id, id⟩ .user 100 userCaller requestLast s ∧ s.enabled = true ∧
      s.ReturnsAsChosen .user 100 := by
  have hrun : ∃ s, EcallRun ⟨id, id⟩ .user 100 userCaller requestLast s ∧
      (s.loc = .mret ∧ s.enabled = true ∧ s.overtaken = false) := by
    apply exists_run_of_follow
      (fun s : Ecall => s.loc = .mret ∧ s.enabled = true ∧ s.overtaken = false)
    decide +kernel
  obtain ⟨s, run, hret, henabled, hkept⟩ := hrun
  have hiff := ecall_returns_as_chosen _ _ _ _ _ s run hret
  exact ⟨s, run, henabled, hiff.mpr (.inr (.inr hkept))⟩

/-- An interrupt after the request takes it back: a caller in user mode goes on in user mode. -/
theorem ecall_request_lost :
    ∃ s, EcallRun ⟨id, id⟩ .user 100 userCaller requestOvertaken s ∧
      s.loc = .mret ∧ s.enabled = true ∧ s.csrs.mstatus.mpp = .user ∧
      ¬ s.ReturnsAsChosen .user 100 := by
  apply exists_run_of_follow (fun s : Ecall => s.loc = .mret ∧ s.enabled = true ∧
    s.csrs.mstatus.mpp = .user ∧ ¬ s.ReturnsAsChosen .user 100)
  decide +kernel

end UniSdk.Core
