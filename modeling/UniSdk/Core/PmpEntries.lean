import UniSdk.Core.Pmp
import UniSdk.Library.Scans

/-!
# Runs of calls on the protection entries

Every call writes the address register of its entry and one byte of a register that it shares
with three others. The hardware drops what is written to a locked entry. As long as nothing is
locked, each entry is as the last call on it has left it.
-/

namespace UniSdk.Core

open Library.Scans

def SCHEME_TOR : BitVec 8 := 1

/-- `tlk_pmp_configure_tor` -/
def tlkPmpConfigureTor (entry : Nat) (address : BitVec 32) (config : TlkPmpConfig) (s : PmpRegs) :
    PmpRegs :=
  let pmpcfg := config.byte ||| (SCHEME_TOR <<< 3)
  tlkPmpWriteConfig entry pmpcfg (tlkPmpWriteAddress entry (address >>> 2) s)

/-- `tlk_pmp_disable_entry` -/
def tlkPmpDisableEntry (entry : Nat) (address : BitVec 32) (s : PmpRegs) : PmpRegs :=
  tlkPmpWriteConfig entry 0#8 (tlkPmpWriteAddress entry (address >>> 2) s)

/-- A call of the driver; `enum tlk_pmp_entry` has the values 0 to 7. -/
inductive PmpCall
  | configureTor (entry : Fin 8) (address : BitVec 32) (config : TlkPmpConfig)
  | configureNapot (entry : Fin 8) (address : BitVec 32) (size : BitVec 64) (config : TlkPmpConfig)
  | disableEntry (entry : Fin 8) (address : BitVec 32)
  deriving DecidableEq

/-! ## Locks -/

/-- The L field of an entry. -/
def PmpRegs.locked (s : PmpRegs) (entry : Nat) : Bool := (s.entryConfig entry).getLsbD 7

/-- The address register of an entry is locked with it, and with the next entry where that one
ends at its own address and begins at this one. -/
def PmpRegs.addressLocked (s : PmpRegs) (entry : Nat) : Bool :=
  s.locked entry ||
    (entry + 1 < 8 && s.locked (entry + 1) && addressMatching (s.entryConfig (entry + 1)) == 1#2)

/-- The four configurations from `first` on, as they are where the old ones are locked. -/
def keepLockedBytes (old : PmpRegs) (first : Nat) (cfg : BitVec 32) : BitVec 32 :=
  (List.range' first 4).foldl
    (fun cfg i => if old.locked i then replaceByte cfg i (old.entryConfig i) else cfg) cfg

/-- What the hardware keeps of the values `new` that are written over `old`. -/
def PmpRegs.accept (old new : PmpRegs) : PmpRegs where
  cfg0 := keepLockedBytes old 0 new.cfg0
  cfg1 := keepLockedBytes old 4 new.cfg1
  addr := fun i => if old.addressLocked i then old.addr i else new.addr i

def PmpRegs.Unlocked (s : PmpRegs) : Prop := ∀ entry < 8, s.locked entry = false

instance (s : PmpRegs) : Decidable s.Unlocked :=
  inferInstanceAs (Decidable (∀ entry < 8, s.locked entry = false))

namespace PmpCall

def entry : PmpCall → Fin 8
  | configureTor entry _ _ => entry
  | configureNapot entry _ _ _ => entry
  | disableEntry entry _ => entry

/-- What the call writes. -/
def values : PmpCall → PmpRegs → PmpRegs
  | configureTor entry address config => tlkPmpConfigureTor entry address config
  | configureNapot entry address size config => tlkPmpConfigureNapot entry address size config
  | disableEntry entry address => tlkPmpDisableEntry entry address

/-- A call writes the address first, which changes no lock, so one look at the locks decides for
both of its writes. -/
def exec (s : PmpRegs) (call : PmpCall) : PmpRegs := s.accept (call.values s)

/-- The reserved bits of the configuration are zero. -/
def ReservedZero : PmpCall → Prop
  | configureTor _ _ config => config.reserved = 0
  | configureNapot _ _ _ config => config.reserved = 0
  | disableEntry _ _ => True

end PmpCall

/-! ## What a call determines -/

/-- The configuration of an entry by its fields, from the top down: L, two reserved bits, A, X, W
and R. -/
def entryByte (a : BitVec 2) (config : TlkPmpConfig) : BitVec 8 :=
  BitVec.ofBool config.l ++ 0#2 ++ a ++ BitVec.ofBool config.x ++ BitVec.ofBool config.w ++
    BitVec.ofBool config.r

namespace PmpCall

/-- The configuration that the call asks for. -/
def config : PmpCall → BitVec 8
  | configureTor _ _ config => entryByte 1#2 config
  | configureNapot _ _ _ config => entryByte 3#2 config
  | disableEntry _ _ => 0#8

/-- The address register that the call asks for: the address in units of four bytes, or the code
of a region. -/
def address : PmpCall → BitVec 32
  | configureTor _ address _ => address >>> 2
  | configureNapot _ address size _ => napot address size
  | disableEntry _ address => address >>> 2

end PmpCall

theorem byte_or_scheme {config : TlkPmpConfig} (h : config.reserved = 0) :
    config.byte ||| (SCHEME_TOR <<< 3) = entryByte 1#2 config ∧
      config.byte ||| (SCHEME_NAPOT <<< 3) = entryByte 3#2 config := by
  obtain ⟨r, w, x, reserved, l⟩ := config
  obtain rfl : reserved = 0 := h
  revert r w x l
  decide +kernel

/-- One write of an address and of a configuration. -/
theorem writes_entries (entry : Fin 8) (address : BitVec 32) (config : BitVec 8) (s : PmpRegs)
    (other : Fin 8) :
    (tlkPmpWriteConfig entry config (tlkPmpWriteAddress entry address s)).entryConfig other =
        (if other = entry then config else s.entryConfig other) ∧
      (tlkPmpWriteConfig entry config (tlkPmpWriteAddress entry address s)).addr other =
        if other = entry then address else s.addr other := by
  have hsame : (other : Nat) = entry ↔ other = entry := Fin.val_inj
  constructor
  · rw [entryConfig_write entry.isLt other.isLt, tlkPmpWriteAddress, if_pos entry.isLt]
    simp only [hsame]
    rfl
  · rw [tlkPmpWriteConfig_addr, tlkPmpWriteAddress, if_pos entry.isLt]
    simp only [hsame]

/-- A call writes what it asks for to its own entry and leaves every other as it was. -/
theorem values_entries {call : PmpCall} (hreserved : call.ReservedZero) (s : PmpRegs)
    (other : Fin 8) :
    (call.values s).entryConfig other =
        (if other = call.entry then call.config else s.entryConfig other) ∧
      (call.values s).addr other = if other = call.entry then call.address else s.addr other := by
  cases call with
  | configureTor entry address config =>
    rw [PmpCall.config, ← (byte_or_scheme hreserved).1]
    exact writes_entries entry (address >>> 2) _ s other
  | configureNapot entry address size config =>
    rw [PmpCall.config, ← (byte_or_scheme hreserved).2]
    exact writes_entries entry (napot address size) _ s other
  | disableEntry entry address => exact writes_entries entry (address >>> 2) 0#8 s other

theorem keepLockedBytes_of_unlocked {old : PmpRegs} (h : old.Unlocked) {first : Nat}
    (hfirst : first ≤ 4) (cfg : BitVec 32) : keepLockedBytes old first cfg = cfg := by
  have hall : ∀ i ∈ List.range' first 4, old.locked i = false := by
    intro i hi
    rw [List.mem_range'_1] at hi
    exact h i (by omega)
  unfold keepLockedBytes
  generalize List.range' first 4 = entries at hall
  induction entries with
  | nil => rfl
  | cons i entries ih =>
    rw [List.foldl_cons, hall i List.mem_cons_self, if_neg Bool.false_ne_true]
    exact ih fun j hj => hall j (List.mem_cons_of_mem _ hj)

/-- Where nothing is locked everything is accepted. -/
theorem accept_of_unlocked {old : PmpRegs} (h : old.Unlocked) (new : PmpRegs) (entry : Fin 8) :
    (old.accept new).entryConfig entry = new.entryConfig entry ∧
      (old.accept new).addr entry = new.addr entry := by
  constructor
  · rw [PmpRegs.entryConfig, PmpRegs.accept, keepLockedBytes_of_unlocked h (by decide),
      keepLockedBytes_of_unlocked h (by decide)]
    rfl
  · have hnext : (decide ((entry : Nat) + 1 < 8) && old.locked (entry + 1)) = false := by
      by_cases hlt : (entry : Nat) + 1 < 8
      · rw [h _ hlt, Bool.and_false]
      · rw [decide_eq_false hlt, Bool.false_and]
    have hopen : old.addressLocked entry = false := by
      rw [PmpRegs.addressLocked, h _ entry.isLt, hnext]
      rfl
    simp only [PmpRegs.accept, hopen, Bool.false_eq_true, if_false]

/-- One call, where nothing is locked. -/
theorem exec_entries {call : PmpCall} (hreserved : call.ReservedZero) {s : PmpRegs}
    (h : s.Unlocked) (other : Fin 8) :
    (PmpCall.exec s call).entryConfig other =
        (if other = call.entry then call.config else s.entryConfig other) ∧
      (PmpCall.exec s call).addr other =
        if other = call.entry then call.address else s.addr other := by
  obtain ⟨hconfig, haddr⟩ := accept_of_unlocked h (call.values s) other
  obtain ⟨hconfig', haddr'⟩ := values_entries hreserved s other
  exact ⟨hconfig.trans hconfig', haddr.trans haddr'⟩

/-- **Entries are configured independently.** After every run of calls that meets no locked entry,
each entry is as the last call on it asked for, and as it was where there was none. -/
theorem tlkPmp_entries_independent (calls : List PmpCall) (s : PmpRegs)
    (hreserved : ∀ call ∈ calls, call.ReservedZero)
    (hunlocked : ∀ n < calls.length, ((calls.take n).foldl PmpCall.exec s).Unlocked)
    (entry : Fin 8) :
    (calls.foldl PmpCall.exec s).entryConfig entry =
        lastValue PmpCall.entry PmpCall.config (s.entryConfig entry) entry calls ∧
      (calls.foldl PmpCall.exec s).addr entry =
        lastValue PmpCall.entry PmpCall.address (s.addr entry) entry calls := by
  have hstep : ∀ before call, before ++ [call] <+: calls →
      call.ReservedZero ∧ (before.foldl PmpCall.exec s).Unlocked := by
    intro before call hrun
    refine ⟨hreserved call (hrun.subset (List.mem_append_right _ List.mem_cons_self)), ?_⟩
    have hlength := hrun.length_le
    rw [List.length_append, List.length_singleton] at hlength
    have hbefore := List.prefix_iff_eq_take.mp ((List.prefix_append before [call]).trans hrun)
    rw [hbefore]
    exact hunlocked before.length hlength
  constructor
  · exact foldl_lastValue PmpCall.entry PmpCall.config
      (fun (s : PmpRegs) (k : Fin 8) => s.entryConfig k)
      (fun before call hrun k => by
        obtain ⟨hzero, hopen⟩ := hstep before call hrun
        exact (exec_entries hzero hopen k).1) entry
  · exact foldl_lastValue PmpCall.entry PmpCall.address
      (fun (s : PmpRegs) (k : Fin 8) => s.addr k)
      (fun before call hrun k => by
        obtain ⟨hzero, hopen⟩ := hstep before call hrun
        exact (exec_entries hzero hopen k).2) entry

/-- An entry is configured and disabled again, and the last of its neighbours is locked. -/
theorem tlkPmp_entries_independent_neighbours :
    let s : PmpRegs := ⟨0, 0, fun _ => 0⟩
    let calls : List PmpCall := [.configureTor 0 0x1000#32 ⟨true, true, false, 0, false⟩,
      .configureTor 1 0x2000#32 ⟨true, false, false, 0, false⟩, .disableEntry 0 0x3000#32,
      .configureNapot 3 0x8000#32 0x1000#64 ⟨true, false, true, 0, true⟩]
    (calls.foldl PmpCall.exec s).entryConfig (1 : Fin 8) =
        lastValue PmpCall.entry PmpCall.config (s.entryConfig (1 : Fin 8)) 1 calls ∧
      (calls.foldl PmpCall.exec s).addr (1 : Fin 8) =
        lastValue PmpCall.entry PmpCall.address (s.addr (1 : Fin 8)) 1 calls := by
  intro s calls
  refine tlkPmp_entries_independent calls s ?_ (by decide +kernel) 1
  intro call hcall
  simp only [calls, List.mem_cons, List.not_mem_nil, or_false] at hcall
  rcases hcall with rfl | rfl | rfl | rfl
  · rfl
  · rfl
  · trivial
  · rfl

end UniSdk.Core
