import UniSdk.Library.Runs
import UniSdk.Library.Words

/-!
# The C heap break

`_sbrk` of `mem.c` on 32-bit addresses. The one test of a call compares the wrapped sum of the
break and the increment with the end of the bank, so a call can move the break below `_end`, or
around the address space.
-/

namespace UniSdk.System

open Library Library.Runs

/-- The address of `_end`, where static data ends, and the values of the two macros that give the
bank. -/
structure HeapBank where
  linkEnd : BitVec 32
  memAvailableArea : BitVec 32
  heapBankAddr : BitVec 32
  end_le : linkEnd ≤ memAvailableArea * 1024#32 + heapBankAddr

def HeapBank.chipHeapBankEndAddr (bank : HeapBank) : BitVec 32 :=
  bank.memAvailableArea * 1024#32 + bank.heapBankAddr

/-- The break a call starts from; `heap_end` is null before the first call. -/
def HeapBank.heapBreak (bank : HeapBank) (heapEnd : BitVec 32) : BitVec 32 :=
  if heapEnd = 0#32 then bank.linkEnd else heapEnd

/-- The line "Dynamic memory out of range: requested: %d, available: %d". -/
structure OutOfRange where
  requested : BitVec 32
  available : BitVec 32

/-- What a call returns, the `heap_end` it leaves and the line it logs. -/
structure Sbrk where
  result : BitVec 32
  heapEnd : BitVec 32
  error : Option OutOfRange

def sbrk (bank : HeapBank) (heapEnd incr : BitVec 32) : Sbrk :=
  let prevHeapEnd := bank.heapBreak heapEnd
  if prevHeapEnd + incr > bank.chipHeapBankEndAddr then
    ⟨-1#32, prevHeapEnd, some ⟨incr, bank.chipHeapBankEndAddr - prevHeapEnd⟩⟩
  else ⟨prevHeapEnd, prevHeapEnd + incr, none⟩

def sbrkStep (bank : HeapBank) (heapEnd incr : BitVec 32) : Option (BitVec 32) :=
  some (sbrk bank heapEnd incr).heapEnd

/-- What is promised of a call: the new break is in the bank, a failed call leaves the break, a
successful one returns it and moves it by the increment, and the region handed out lies between
static data and the end of the bank. -/
structure CallInBank (bank : HeapBank) (heapEnd incr heapEnd' : BitVec 32) : Prop where
  low : bank.linkEnd ≤ heapEnd'
  high : heapEnd' ≤ bank.chipHeapBankEndAddr
  failed : (sbrk bank heapEnd incr).result = -1#32 → heapEnd' = bank.heapBreak heapEnd
  moved : (sbrk bank heapEnd incr).result ≠ -1#32 →
    (sbrk bank heapEnd incr).result = bank.heapBreak heapEnd ∧
      (heapEnd'.toNat : Int) = (bank.heapBreak heapEnd).toNat + incr.toInt
  region : (sbrk bank heapEnd incr).result ≠ -1#32 → ∀ a,
    (sbrk bank heapEnd incr).result ≤ a → a < heapEnd' →
      bank.linkEnd ≤ a ∧ a < bank.chipHeapBankEndAddr

/-- The increments that the one test is enough for. Their sum with the break is not an address
below `_end`, does not reach the end of the address space, and, where it is negative, wraps to
beyond the bank. From the last address, which is also `(void*)-1`, the break does not move. -/
structure CallFits (bank : HeapBank) (heapEnd incr heapEnd' : BitVec 32) : Prop where
  above_end : 0 ≤ (bank.heapBreak heapEnd).toNat + incr.toInt →
    (bank.linkEnd.toNat : Int) ≤ (bank.heapBreak heapEnd).toNat + incr.toInt
  below_zero : (bank.heapBreak heapEnd).toNat + incr.toInt < 0 →
    (bank.chipHeapBankEndAddr.toNat : Int) <
      (bank.heapBreak heapEnd).toNat + incr.toInt + 2 ^ 32
  no_overflow : (bank.heapBreak heapEnd).toNat + incr.toInt < 2 ^ 32
  not_last : bank.heapBreak heapEnd = -1#32 → incr = 0#32

/-- The break is in the bank. -/
structure BreakInBank (bank : HeapBank) (heapEnd : BitVec 32) : Prop where
  low : bank.linkEnd ≤ bank.heapBreak heapEnd
  high : bank.heapBreak heapEnd ≤ bank.chipHeapBankEndAddr

variable {bank : HeapBank} {heapEnd heapEnd' incr : BitVec 32}

theorem breakInBank_initial (bank : HeapBank) : BreakInBank bank 0#32 := by
  constructor
  · exact BitVec.le_refl _
  · exact bank.end_le

theorem CallInBank.breakInBank (h : CallInBank bank heapEnd incr heapEnd') :
    BreakInBank bank heapEnd' := by
  by_cases hnull : heapEnd' = 0#32
  · rw [hnull]
    exact breakInBank_initial bank
  · have hbreak : bank.heapBreak heapEnd' = heapEnd' := if_neg hnull
    constructor
    · rw [hbreak]
      exact h.low
    · rw [hbreak]
      exact h.high

theorem sbrk_out (h : bank.heapBreak heapEnd + incr > bank.chipHeapBankEndAddr) :
    sbrk bank heapEnd incr = ⟨-1#32, bank.heapBreak heapEnd,
      some ⟨incr, bank.chipHeapBankEndAddr - bank.heapBreak heapEnd⟩⟩ := if_pos h

theorem sbrk_in (h : ¬ bank.heapBreak heapEnd + incr > bank.chipHeapBankEndAddr) :
    sbrk bank heapEnd incr = ⟨bank.heapBreak heapEnd, bank.heapBreak heapEnd + incr, none⟩ :=
  if_neg h

/-- The last address is the value of `(void*)-1`. -/
theorem eq_last_iff {x : BitVec 32} : x = -1#32 ↔ x.toNat = 2 ^ 32 - 1 := by
  rw [← BitVec.toNat_inj]
  rfl

/-- A call that fails reports more than is available. -/
theorem sbrk_error {e : OutOfRange} (h : BreakInBank bank heapEnd)
    (he : (sbrk bank heapEnd incr).error = some e) :
    e.requested = incr ∧ e.available.toNat < e.requested.toNat := by
  by_cases hout : bank.heapBreak heapEnd + incr > bank.chipHeapBankEndAddr
  · rw [sbrk_out hout, Option.some.injEq] at he
    rw [← he]
    have hhigh := BitVec.le_def.mp h.high
    have hsum := BitVec.lt_def.mp hout
    rw [BitVec.toNat_add] at hsum
    refine ⟨rfl, ?_⟩
    show (bank.chipHeapBankEndAddr - bank.heapBreak heapEnd).toNat < incr.toNat
    rw [BitVec.toNat_sub_of_le h.high]
    omega
  · rw [sbrk_in hout] at he
    cases he

/-- A wrapped sum beyond the bank comes from an increment that fits, and the call fails. -/
theorem callInBank_out (h : BreakInBank bank heapEnd)
    (hout : bank.heapBreak heapEnd + incr > bank.chipHeapBankEndAddr) :
    CallInBank bank heapEnd incr (sbrk bank heapEnd incr).heapEnd ∧
      CallFits bank heapEnd incr (sbrk bank heapEnd incr).heapEnd := by
  have hsum := Words.toNat_add_toInt (bank.heapBreak heapEnd) incr
  have hlt := BitVec.lt_def.mp hout
  have hlow := BitVec.le_def.mp h.low
  have hhigh := BitVec.le_def.mp h.high
  have hmin := BitVec.le_toInt incr
  have hmax := BitVec.toInt_lt (x := incr)
  have hresult : (sbrk bank heapEnd incr).result = -1#32 := by rw [sbrk_out hout]
  have hend : (sbrk bank heapEnd incr).heapEnd = bank.heapBreak heapEnd := by rw [sbrk_out hout]
  rw [hend]
  constructor
  · constructor
    · exact h.low
    · exact h.high
    · exact fun _ => rfl
    · exact fun hne => absurd hresult hne
    · exact fun hne => absurd hresult hne
  · constructor
    · omega
    · omega
    · omega
    · intro hlast
      have hbreak := eq_last_iff.mp hlast
      omega

theorem callFits_of_in (hin : ¬ bank.heapBreak heapEnd + incr > bank.chipHeapBankEndAddr)
    (hcall : CallInBank bank heapEnd incr (bank.heapBreak heapEnd + incr)) :
    CallFits bank heapEnd incr (bank.heapBreak heapEnd + incr) := by
  have hlow := BitVec.le_def.mp hcall.low
  have hmoved : ((bank.heapBreak heapEnd + incr).toNat : Int) =
      (bank.heapBreak heapEnd).toNat + incr.toInt ∧
        (bank.heapBreak heapEnd = -1#32 → incr = 0#32) := by
    have hfailed := hcall.failed
    have hsuccess := hcall.moved
    rw [sbrk_in hin] at hfailed hsuccess
    by_cases hlast : bank.heapBreak heapEnd = -1#32
    · have hzero : incr = 0#32 := BitVec.add_right_eq_self.mp (hfailed hlast)
      rw [hzero]
      simp
    · exact ⟨(hsuccess hlast).2, fun he => absurd he hlast⟩
  obtain ⟨hsum, hzero⟩ := hmoved
  have hlt := (bank.heapBreak heapEnd + incr).isLt
  constructor
  · omega
  · omega
  · omega
  · exact hzero

theorem callInBank_of_in (h : BreakInBank bank heapEnd)
    (hin : ¬ bank.heapBreak heapEnd + incr > bank.chipHeapBankEndAddr)
    (hfits : CallFits bank heapEnd incr (bank.heapBreak heapEnd + incr)) :
    CallInBank bank heapEnd incr (bank.heapBreak heapEnd + incr) := by
  have hsum := Words.toNat_add_toInt (bank.heapBreak heapEnd) incr
  have hbank : (bank.heapBreak heapEnd + incr).toNat ≤ bank.chipHeapBankEndAddr.toNat :=
    Nat.le_of_not_lt fun hlt => hin (BitVec.lt_def.mpr hlt)
  have habove := hfits.above_end
  have hbelow := hfits.below_zero
  have hover := hfits.no_overflow
  have hlow := BitVec.le_def.mp h.low
  have hmoved : ((bank.heapBreak heapEnd + incr).toNat : Int) =
      (bank.heapBreak heapEnd).toNat + incr.toInt := by
    have hmin := BitVec.le_toInt incr
    omega
  constructor
  · rw [BitVec.le_def]
    omega
  · rw [BitVec.le_def]
    exact hbank
  · rw [sbrk_in hin]
    intro hlast
    rw [hfits.not_last hlast, BitVec.add_zero]
  · rw [sbrk_in hin]
    exact fun _ => ⟨rfl, hmoved⟩
  · rw [sbrk_in hin]
    intro _ a hfrom hto
    have hfrom' := BitVec.le_def.mp hfrom
    have hto' := BitVec.lt_def.mp hto
    rw [BitVec.le_def, BitVec.lt_def]
    dsimp only at hfrom'
    omega

/-- From a break in the bank a call keeps its promise exactly when the increment fits. -/
theorem callInBank_iff (h : BreakInBank bank heapEnd) :
    CallInBank bank heapEnd incr (sbrk bank heapEnd incr).heapEnd ↔
      CallFits bank heapEnd incr (sbrk bank heapEnd incr).heapEnd := by
  by_cases hout : bank.heapBreak heapEnd + incr > bank.chipHeapBankEndAddr
  · obtain ⟨hcall, hfits⟩ := callInBank_out h hout
    exact ⟨fun _ => hfits, fun _ => hcall⟩
  · have hend : (sbrk bank heapEnd incr).heapEnd = bank.heapBreak heapEnd + incr := by
      rw [sbrk_in hout]
    rw [hend]
    exact ⟨callFits_of_in hout, callInBank_of_in h hout⟩

/-- Where the bank ends in the lower half of the address space, only an increment that takes the
break below `_end` and not below zero does not fit. -/
theorem callFits_iff_of_lower_half (h : BreakInBank bank heapEnd)
    (hhalf : bank.chipHeapBankEndAddr.toNat < 2 ^ 31) :
    CallFits bank heapEnd incr heapEnd' ↔
      (incr.toInt < -(bank.heapBreak heapEnd).toNat ∨
        (bank.linkEnd.toNat : Int) - (bank.heapBreak heapEnd).toNat ≤ incr.toInt) := by
  have hhigh := BitVec.le_def.mp h.high
  have hmin := BitVec.le_toInt incr
  have hmax := BitVec.toInt_lt (x := incr)
  constructor
  · intro hfits
    have habove := hfits.above_end
    omega
  · intro hincr
    constructor
    · omega
    · omega
    · omega
    · intro hlast
      have hbreak := eq_last_iff.mp hlast
      omega

/-- The break stays in its bank in the runs whose every increment fits, and in no others. -/
theorem heap_break_in_bank (bank : HeapBank) (incrs : List (BitVec 32)) (heapEnd : BitVec 32) :
    Run (sbrkStep bank) (CallInBank bank) 0#32 incrs heapEnd ↔
      Run (sbrkStep bank) (CallFits bank) 0#32 incrs heapEnd := by
  constructor
  · intro run
    apply run.imp (breakInBank_initial bank)
    intro s incr s' hstep hcall hbreak
    rw [sbrkStep, Option.some.injEq] at hstep
    rw [← hstep] at hcall ⊢
    exact ⟨(callInBank_iff hbreak).mp hcall, hcall.breakInBank⟩
  · intro run
    apply run.imp (breakInBank_initial bank)
    intro s incr s' hstep hfits hbreak
    rw [sbrkStep, Option.some.injEq] at hstep
    rw [← hstep] at hfits ⊢
    have hcall := (callInBank_iff hbreak).mpr hfits
    exact ⟨hcall, hcall.breakInBank⟩

/-- Static data ends 1 KiB into a bank of 64 KiB. The first call gives back 1 KiB that no call
handed out, and the second hands out static data. -/
theorem heap_break_below_end :
    let bank : HeapBank := ⟨0x80400#32, 64#32, 0x80000#32, by decide⟩
    ∃ heapEnd, Run (sbrkStep bank) (fun _ _ _ => True) 0#32 [-0x400#32, 0x100#32] heapEnd ∧
      heapEnd < bank.linkEnd ∧
      ¬ Run (sbrkStep bank) (CallInBank bank) 0#32 [-0x400#32, 0x100#32] heapEnd := by
  intro bank
  have hrun : ∃ heapEnd, Run (sbrkStep bank) (fun _ _ _ => True) 0#32 [-0x400#32, 0x100#32]
      heapEnd ∧ heapEnd < bank.linkEnd := by
    apply exists_run_of_follow (fun heapEnd : BitVec 32 => heapEnd < bank.linkEnd)
    decide +kernel
  obtain ⟨heapEnd, run, hbelow⟩ := hrun
  refine ⟨heapEnd, run, hbelow, fun hcalls => ?_⟩
  cases hcalls with
  | cons hstep hcall rest =>
    have hfirst : sbrkStep bank 0#32 (-0x400#32) = some 0x80000#32 := by decide
    rw [hfirst, Option.some.injEq] at hstep
    rw [← hstep] at hcall
    exact absurd hcall.low (by decide)

end UniSdk.System
