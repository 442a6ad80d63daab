/-!
# Interrupt enables and machine-mode traps

The registers that decide whether an interrupt is taken, what trap entry and `mret` do to
them, and the functions of `tlk_core.h` that the planner calls.
-/

namespace UniSdk.Core

/-- The MIE register: the enables of the three machine interrupts. -/
structure Mie where
  msie : Bool
  mtie : Bool
  meie : Bool
  deriving DecidableEq, Repr

inductive Interrupt
  | software
  | timer
  | external
  deriving DecidableEq, Repr

def Mie.enabled (m : Mie) : Interrupt → Bool
  | .software => m.msie
  | .timer => m.mtie
  | .external => m.meie

/-- The bits set in either operand: `csrrs` on the register. -/
def Mie.or (m bits : Mie) : Mie where
  msie := m.msie || bits.msie
  mtie := m.mtie || bits.mtie
  meie := m.meie || bits.meie

def Mie.and (m bits : Mie) : Mie where
  msie := m.msie && bits.msie
  mtie := m.mtie && bits.mtie
  meie := m.meie && bits.meie

/-- The bits that `bits` leaves clear: `csrrc`. -/
def Mie.clear (m bits : Mie) : Mie where
  msie := m.msie && !bits.msie
  mtie := m.mtie && !bits.mtie
  meie := m.meie && !bits.meie

/-- The register before, and the register with the bits cleared. -/
def tlkCoreMieDisable (mask m : Mie) : Mie × Mie := (m, m.clear mask)

def tlkCoreMieEnable (mask m : Mie) : Mie := m.or mask

/-- A critical section on any bits leaves MIE as it was. -/
theorem mie_critical (mask m : Mie) :
    tlkCoreMieEnable (tlkCoreMieDisable mask m).1 (tlkCoreMieDisable mask m).2 = m := by
  obtain ⟨a, b, c⟩ := m
  obtain ⟨a', b', c'⟩ := mask
  cases a <;> cases b <;> cases c <;>
    simp [tlkCoreMieEnable, tlkCoreMieDisable, Mie.or, Mie.clear]

inductive Privilege
  | user
  | machine
  deriving DecidableEq, Repr

/-- The fields of MSTATUS that traps use. -/
structure Mstatus where
  mie : Bool
  mpie : Bool
  mpp : Privilege
  deriving DecidableEq, Repr

/-- Trap entry from the privilege `priv`. -/
def Mstatus.trapEntry (priv : Privilege) (m : Mstatus) : Mstatus where
  mie := false
  mpie := m.mie
  mpp := priv

def Mstatus.mret (m : Mstatus) : Mstatus where
  mie := m.mpie
  mpie := true
  mpp := .user

/-- The previous MIE bit, and MSTATUS with the bit cleared. -/
def tlkCoreInterruptDisable (m : Mstatus) : Bool × Mstatus := (m.mie, { m with mie := false })

def tlkCoreInterruptRestore (en : Bool) (m : Mstatus) : Mstatus :=
  if en then { m with mie := true } else m

end UniSdk.Core
