import UniSdk.Library.Runs

/-!
# The recovery mailbox

The application asks for recovery through two words of RAM that survive a reset, and the
bootloader consumes the request. Both write the words one after the other, and a reset may fall
between any two statements. Whatever half-written mailbox it leaves, both words hold the pattern
only if a request has executed its last write and no call has honoured it.
-/

namespace UniSdk.Mcuboot

open Library.Runs

/-- `TLK_MCUBOOT_RECOVERY_MAGIC`. -/
def TLK_MCUBOOT_RECOVERY_MAGIC : UInt32 := 0x544C4B44

/-- `struct tlk_mcuboot_mailbox`. -/
structure Mailbox where
  magic : UInt32
  magicInv : UInt32
  deriving DecidableEq

/-- Both words hold the request pattern. -/
def Mailbox.Requested (m : Mailbox) : Prop :=
  m.magic = TLK_MCUBOOT_RECOVERY_MAGIC ∧ m.magicInv = ~~~TLK_MCUBOOT_RECOVERY_MAGIC

/-- The statement that runs next, in `tlk_mcuboot_recovery_mailbox_pending` or in
`tlk_mcuboot_request_recovery`. -/
inductive MailboxLoc
  | testMagic
  | testMagicInv
  | consumeMagic
  | consumeMagicInv
  | returnTrue
  | eraseMagic
  | writeMagicInv
  | writeMagic
  | fence
  deriving DecidableEq, Repr

/-- The chip. The rest is history: how many requests have executed their last write, how many
calls have returned true, and whether the former has happened since the latter did last. -/
structure RecoveryChip where
  mailbox : Mailbox
  loc : Option MailboxLoc
  requests : Nat
  honoured : Nat
  fresh : Bool

inductive RecoveryAction
  | callPending
  | callRequest
  | exec
  | reset
  deriving DecidableEq, Repr

def mailboxExec (s : RecoveryChip) : MailboxLoc → RecoveryChip
  | .testMagic =>
    { s with
      loc := if s.mailbox.magic = TLK_MCUBOOT_RECOVERY_MAGIC then some .testMagicInv else none }
  | .testMagicInv =>
    { s with
      loc :=
        if s.mailbox.magicInv = ~~~TLK_MCUBOOT_RECOVERY_MAGIC then some .consumeMagic else none }
  | .consumeMagic =>
    { s with mailbox := { s.mailbox with magic := 0 }, loc := some .consumeMagicInv }
  | .consumeMagicInv =>
    { s with mailbox := { s.mailbox with magicInv := 0 }, loc := some .returnTrue }
  | .returnTrue => { s with loc := none, honoured := s.honoured + 1, fresh := false }
  | .eraseMagic =>
    { s with mailbox := { s.mailbox with magic := 0 }, loc := some .writeMagicInv }
  | .writeMagicInv =>
    { s with
      mailbox := { s.mailbox with magicInv := ~~~TLK_MCUBOOT_RECOVERY_MAGIC }
      loc := some .writeMagic }
  | .writeMagic =>
    { s with
      mailbox := { s.mailbox with magic := TLK_MCUBOOT_RECOVERY_MAGIC }
      loc := some .fence
      requests := s.requests + 1
      fresh := true }
  | .fence => { s with loc := none }

/-- One call at a time; a reset leaves the call and keeps the RAM. -/
def recoveryStep (s : RecoveryChip) : RecoveryAction → Option RecoveryChip
  | .callPending =>
    match s.loc with
    | none => some { s with loc := some .testMagic }
    | some _ => none
  | .callRequest =>
    match s.loc with
    | none => some { s with loc := some .eraseMagic }
    | some _ => none
  | .exec => s.loc.map (mailboxExec s)
  | .reset => some { s with loc := none }

/-- Power-up with any RAM. -/
def RecoveryChip.powerUp (mailbox : Mailbox) : RecoveryChip where
  mailbox := mailbox
  loc := none
  requests := 0
  honoured := 0
  fresh := false

/-- A cleared first word is no request, whatever the second one holds. -/
theorem Mailbox.not_requested {m : Mailbox} (h : m.magic = 0) : ¬ m.Requested := by
  intro hreq
  have hzero : TLK_MCUBOOT_RECOVERY_MAGIC = 0 := hreq.1.symm.trans h
  exact absurd hzero (by decide)

/-- What is known at each statement of a call. -/
def MailboxLoc.Sound (mailbox : Mailbox) (fresh : Bool) : MailboxLoc → Prop
  | .testMagic | .eraseMagic | .fence => True
  | .testMagicInv => mailbox.magic = TLK_MCUBOOT_RECOVERY_MAGIC
  | .consumeMagic => fresh = true
  | .consumeMagicInv | .returnTrue => fresh = true ∧ mailbox.magic = 0
  | .writeMagicInv | .writeMagic => mailbox.magic = 0

structure RecoveryInv (s : RecoveryChip) : Prop where
  requested : s.mailbox.Requested → s.fresh = true
  counted : s.honoured + s.fresh.toNat ≤ s.requests
  sound : ∀ loc ∈ s.loc, loc.Sound s.mailbox s.fresh

section Step

variable {s s' : RecoveryChip}

theorem powerUp_inv {mailbox : Mailbox} (h : ¬ mailbox.Requested) :
    RecoveryInv (.powerUp mailbox) := by
  constructor
  · exact fun hreq => absurd hreq h
  · exact Nat.le_refl 0
  · exact fun _ hloc => by cases hloc

/-- A step that only moves to another statement needs what that statement assumes. -/
theorem RecoveryInv.goto (h : RecoveryInv s) {loc : Option MailboxLoc}
    (hsound : ∀ next ∈ loc, next.Sound s.mailbox s.fresh) : RecoveryInv { s with loc } :=
  ⟨h.requested, h.counted, hsound⟩

theorem RecoveryInv.enter (h : RecoveryInv s) {loc : MailboxLoc}
    (hsound : loc.Sound s.mailbox s.fresh) : RecoveryInv { s with loc := some loc } := by
  apply h.goto
  intro next hnext
  cases hnext
  exact hsound

theorem RecoveryInv.leave (h : RecoveryInv s) : RecoveryInv { s with loc := none } :=
  h.goto fun _ hnext => by cases hnext

/-- A write that leaves the first word cleared makes no request. -/
theorem RecoveryInv.write (h : RecoveryInv s) {mailbox : Mailbox} {next : MailboxLoc}
    (hmagic : mailbox.magic = 0) (hsound : next.Sound mailbox s.fresh) :
    RecoveryInv { s with mailbox, loc := some next } := by
  refine ⟨fun hreq => absurd hreq (Mailbox.not_requested hmagic), h.counted, fun loc hloc => ?_⟩
  cases hloc
  exact hsound

theorem mailboxExec_inv {loc : MailboxLoc} (h : RecoveryInv s) (hloc : s.loc = some loc) :
    RecoveryInv (mailboxExec s loc) := by
  have hsound := h.sound loc hloc
  have hcounted := h.counted
  cases loc with
  | testMagic =>
    apply h.goto
    intro next hnext
    split at hnext
    · next hmagic =>
      cases hnext
      exact hmagic
    · cases hnext
  | testMagicInv =>
    apply h.goto
    intro next hnext
    split at hnext
    · next hmagicInv =>
      cases hnext
      exact h.requested ⟨hsound, hmagicInv⟩
    · cases hnext
  | consumeMagic => exact h.write rfl ⟨hsound, rfl⟩
  | consumeMagicInv => exact h.write hsound.2 hsound
  | returnTrue =>
    refine ⟨fun hreq => absurd hreq (Mailbox.not_requested hsound.2), ?_, fun _ hloc' => ?_⟩
    · rw [hsound.1] at hcounted
      exact hcounted
    · cases hloc'
  | eraseMagic => exact h.write rfl rfl
  | writeMagicInv => exact h.write hsound hsound
  | writeMagic =>
    refine ⟨fun _ => rfl, ?_, fun loc' hloc' => ?_⟩
    · show s.honoured + 1 ≤ s.requests + 1
      omega
    · cases hloc'
      trivial
  | fence => exact h.leave

theorem recoveryStep_inv {a : RecoveryAction} (hstep : recoveryStep s a = some s')
    (h : RecoveryInv s) : RecoveryInv s' := by
  cases a with
  | callPending =>
    rw [recoveryStep] at hstep
    split at hstep
    · cases hstep
      exact h.enter trivial
    · cases hstep
  | callRequest =>
    rw [recoveryStep] at hstep
    split at hstep
    · cases hstep
      exact h.enter trivial
    · cases hstep
  | exec =>
    obtain ⟨loc, hloc, rfl⟩ := Option.map_eq_some_iff.mp hstep
    exact mailboxExec_inv h hloc
  | reset =>
    cases hstep
    exact h.leave

end Step

/-- Runs of the two routines from power-up, with resets anywhere. -/
abbrev RecoveryRun (mailbox : Mailbox) (acts : List RecoveryAction) (s : RecoveryChip) : Prop :=
  Run recoveryStep (fun _ _ _ => True) (.powerUp mailbox) acts s

/-- A call returns true only for a request that has executed its last write since the last true
result, so results never outnumber requests. -/
theorem recovery_honoured_once (mailbox : Mailbox) (acts : List RecoveryAction) (s : RecoveryChip)
    (hmailbox : ¬ mailbox.Requested) (run : RecoveryRun mailbox acts s) :
    (s.loc = some .returnTrue → s.fresh = true) ∧ s.honoured ≤ s.requests := by
  have hinv := run.invariant (P := RecoveryInv) (powerUp_inv hmailbox)
    fun _ _ _ hstep _ hi => recoveryStep_inv hstep hi
  have hcounted := hinv.counted
  constructor
  · intro hloc
    exact (hinv.sound _ hloc).1
  · omega

/-- A request cut before its last write, a whole one, and two calls after the reset. -/
def requestCutAndRetried : List RecoveryAction :=
  [.callRequest, .exec, .exec, .reset, .callPending, .exec, .callRequest, .exec, .exec, .exec,
    .reset, .callPending, .exec, .exec, .exec, .exec, .exec, .callPending, .exec]

theorem recovery_honoured_once_retried :
    ∃ s, RecoveryRun ⟨7, 9⟩ requestCutAndRetried s ∧ s.honoured = 1 ∧ s.loc = none ∧
      s.honoured ≤ s.requests := by
  have hrun : ∃ s, RecoveryRun ⟨7, 9⟩ requestCutAndRetried s ∧ (s.honoured = 1 ∧ s.loc = none) := by
    apply exists_run_of_follow (fun s : RecoveryChip => s.honoured = 1 ∧ s.loc = none)
    decide +kernel
  obtain ⟨s, run, hhonoured, hloc⟩ := hrun
  have hmailbox : ¬ (⟨7, 9⟩ : Mailbox).Requested := fun h => absurd h.1 (by decide)
  exact ⟨s, run, hhonoured, hloc, (recovery_honoured_once _ _ s hmailbox run).2⟩

end UniSdk.Mcuboot
