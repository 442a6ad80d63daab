import UniSdk.Library.Napot

/-!
# Physical memory protection

`tlk_pmp_configure_napot` writes one address register and one byte of a configuration register.
The eight entries share two configuration registers of four bytes. What the hardware makes of the
two values is the naturally-aligned decoding of the address register.
-/

namespace UniSdk.Core

open Library.Napot

def SCHEME_NAPOT : BitVec 8 := 3

/-- `struct tlk_pmp_config`. -/
structure TlkPmpConfig where
  r : Bool
  w : Bool
  x : Bool
  reserved : BitVec 4
  l : Bool
  deriving DecidableEq

/-- `*(uint8_t*) config`: the fields from the low bit up. -/
def TlkPmpConfig.byte (config : TlkPmpConfig) : BitVec 8 :=
  BitVec.ofBool config.l ++ config.reserved ++ BitVec.ofBool config.x ++ BitVec.ofBool config.w ++
    BitVec.ofBool config.r

/-- `NAPOT(base, size)`: the mask has 32 bits, the size 64. -/
def napot (base : BitVec 32) (size : BitVec 64) : BitVec 32 :=
  if 0#64 < size then
    (((base &&& ~~~(size.setWidth 32 - 1#32)) >>> 2).setWidth 64 ||| ((size - 1#64) >>> 3)).setWidth
      32
  else 0#32

/-- The registers `NDS_PMPCFG0`, `NDS_PMPCFG1` and `NDS_PMPADDR0` to `NDS_PMPADDR7`. -/
structure PmpRegs where
  cfg0 : BitVec 32
  cfg1 : BitVec 32
  addr : Nat → BitVec 32

/-- `(old & ~(0xFF << shift)) | (config << shift)` with the shift of the entry. -/
def replaceByte (old : BitVec 32) (entry : Nat) (config : BitVec 8) : BitVec 32 :=
  (old &&& ~~~(0xFF#32 <<< ((entry % 4) <<< 3))) ||| (config.setWidth 32 <<< ((entry % 4) <<< 3))

/-- `tlk_pmp_write_config` -/
def tlkPmpWriteConfig (entry : Nat) (config : BitVec 8) (s : PmpRegs) : PmpRegs :=
  match entry >>> 2 with
  | 0 => { s with cfg0 := replaceByte s.cfg0 entry config }
  | 1 => { s with cfg1 := replaceByte s.cfg1 entry config }
  | _ => s

/-- `tlk_pmp_write_address` -/
def tlkPmpWriteAddress (entry : Nat) (address : BitVec 32) (s : PmpRegs) : PmpRegs :=
  if entry < 8 then { s with addr := fun i => if i = entry then address else s.addr i } else s

/-- `tlk_pmp_configure_napot` -/
def tlkPmpConfigureNapot (entry : Nat) (address : BitVec 32) (size : BitVec 64)
    (config : TlkPmpConfig) (s : PmpRegs) : PmpRegs :=
  let pmpcfg := config.byte ||| (SCHEME_NAPOT <<< 3)
  tlkPmpWriteConfig entry pmpcfg (tlkPmpWriteAddress entry (napot address size) s)

/-- The configuration byte of an entry. -/
def PmpRegs.entryConfig (s : PmpRegs) (entry : Nat) : BitVec 8 :=
  ((if entry < 4 then s.cfg0 else s.cfg1) >>> (8 * (entry % 4))).setWidth 8

/-- The A field of a configuration byte. -/
def addressMatching (pmpcfg : BitVec 8) : BitVec 2 := pmpcfg.extractLsb' 3 2

/-- The mask clears nothing of a base that is a multiple of the size. -/
theorem and_not_mask {base : BitVec 32} {k : Nat} (hbase : 2 ^ k ∣ base.toNat) :
    base &&& ~~~(BitVec.ofNat 32 (2 ^ k - 1)) = base := by
  apply BitVec.eq_of_getLsbD_eq
  intro i hi
  rw [BitVec.getLsbD_and, BitVec.getLsbD_not, BitVec.getLsbD_ofNat, Nat.testBit_two_pow_sub_one]
  by_cases hk : i < k
  · have hclear : base.getLsbD i = false := by
      obtain ⟨m, hm⟩ := hbase
      rw [BitVec.getLsbD, hm, Nat.testBit_two_pow_mul, decide_eq_false (by omega), Bool.false_and]
    rw [hclear, Bool.false_and]
  · simp [hi, hk]

/-- The 32-bit mask of every size, also of the one whose low 32 bits are zero. -/
theorem size_mask {k : Nat} (hk : k ≤ 32) :
    (BitVec.ofNat 64 (2 ^ k)).setWidth 32 - 1#32 = BitVec.ofNat 32 (2 ^ k - 1) := by
  have hpos := Nat.two_pow_pos k
  have hle : 2 ^ k ≤ 2 ^ 32 := Nat.pow_le_pow_right (by decide) hk
  apply BitVec.eq_of_toNat_eq
  rw [BitVec.toNat_sub, BitVec.toNat_setWidth, BitVec.toNat_ofNat, BitVec.toNat_ofNat,
    BitVec.toNat_ofNat]
  omega

/-- The value that is written. -/
theorem napot_toNat {base : BitVec 32} {k : Nat} (hk : 3 ≤ k) (hk' : k ≤ 32)
    (hbase : 2 ^ k ∣ base.toNat) :
    (napot base (BitVec.ofNat 64 (2 ^ k))).toNat = encode base.toNat k := by
  have hbase' := base.isLt
  have hle : 2 ^ k ≤ 2 ^ 32 := Nat.pow_le_pow_right (by decide) hk'
  have hpow : 2 ^ k = 2 ^ (k - 3) * 8 := (pow_sub_mul_pow 2 hk).symm
  have hsize : (BitVec.ofNat 64 (2 ^ k)).toNat = 2 ^ k := by
    rw [BitVec.toNat_ofNat]
    omega
  have hpos : 0#64 < BitVec.ofNat 64 (2 ^ k) := by
    rw [BitVec.lt_def, hsize]
    exact Nat.two_pow_pos k
  have hrun : ((BitVec.ofNat 64 (2 ^ k) - 1#64) >>> 3).toNat = 2 ^ (k - 3) - 1 := by
    rw [BitVec.toNat_ushiftRight, BitVec.toNat_sub, hsize, Nat.shiftRight_eq_div_pow,
      BitVec.toNat_ofNat]
    omega
  have haddr : ((base >>> 2).setWidth 64).toNat = base.toNat / 4 := by
    rw [BitVec.toNat_setWidth, BitVec.toNat_ushiftRight, Nat.shiftRight_eq_div_pow]
    omega
  have hjoin : base.toNat / 4 ||| (2 ^ (k - 3) - 1) = base.toNat / 4 + (2 ^ (k - 3) - 1) := by
    obtain ⟨m, hm⟩ := hbase
    have hquarter : base.toNat / 4 = 2 ^ (k - 3) * (2 * m) := by
      rw [hm, hpow, mul_assoc, show 8 * m = 2 * m * 4 by omega, ← mul_assoc,
        Nat.mul_div_cancel _ (by decide)]
    rw [hquarter]
    exact (Nat.two_pow_add_eq_or_of_lt (Nat.sub_lt (Nat.two_pow_pos _) Nat.one_pos) _).symm
  rw [napot, if_pos hpos, size_mask hk', and_not_mask hbase, BitVec.toNat_setWidth, BitVec.toNat_or,
    haddr, hrun, hjoin, encode, Nat.mod_eq_of_lt (by omega)]

theorem tlkPmpWriteConfig_addr (entry : Nat) (config : BitVec 8) (s : PmpRegs) :
    (tlkPmpWriteConfig entry config s).addr = s.addr := by
  unfold tlkPmpWriteConfig
  split <;> rfl

/-- The byte of the entry is replaced, the other three are kept. -/
theorem getLsbD_replaceByte (old : BitVec 32) (entry : Nat) (config : BitVec 8) {i : Nat}
    (hi : i < 32) : (replaceByte old entry config).getLsbD i =
      if i / 8 = entry % 4 then config.getLsbD (i % 8) else old.getLsbD i := by
  have hshift : (entry % 4) <<< 3 = entry % 4 * 8 := Nat.shiftLeft_eq _ _
  have hmask : ∀ j, (0xFF#32).getLsbD j = decide (j < 8) := by
    intro j
    show (BitVec.ofNat 32 (2 ^ 8 - 1)).getLsbD j = _
    rw [BitVec.getLsbD_ofNat, Nat.testBit_two_pow_sub_one]
    by_cases hj : j < 8
    · simp [hj, Nat.lt_trans hj (by decide : 8 < 32)]
    · simp [hj]
  rw [replaceByte, hshift, BitVec.getLsbD_or, BitVec.getLsbD_and, BitVec.getLsbD_not,
    BitVec.getLsbD_shiftLeft, BitVec.getLsbD_shiftLeft, hmask, BitVec.getLsbD_setWidth]
  by_cases hbyte : i / 8 = entry % 4
  · have hindex : i - entry % 4 * 8 = i % 8 := by omega
    have hlt : i % 8 < 32 := by omega
    have hge : ¬ i < entry % 4 * 8 := by omega
    rw [if_pos hbyte, hindex]
    simp [hi, hlt, hge, Nat.mod_lt]
  · rw [if_neg hbyte]
    by_cases hbelow : i < entry % 4 * 8
    · simp [hi, hbelow]
    · have habove : 8 ≤ i - entry % 4 * 8 := by omega
      simp [hi, hbelow, habove]

theorem entryConfig_eq (s : PmpRegs) {entry i : Nat} (hi : i < 8) :
    (s.entryConfig entry).getLsbD i =
      (if entry < 4 then s.cfg0 else s.cfg1).getLsbD (8 * (entry % 4) + i) := by
  rw [PmpRegs.entryConfig, BitVec.getLsbD_setWidth, BitVec.getLsbD_ushiftRight, decide_eq_true hi,
    Bool.true_and]

theorem tlkPmpWriteConfig_eq {entry : Nat} (h : entry < 8) (config : BitVec 8) (s : PmpRegs) :
    tlkPmpWriteConfig entry config s =
      if entry < 4 then { s with cfg0 := replaceByte s.cfg0 entry config }
      else { s with cfg1 := replaceByte s.cfg1 entry config } := by
  unfold tlkPmpWriteConfig
  by_cases hlow : entry < 4
  · have hreg : entry >>> 2 = 0 := by
      rw [Nat.shiftRight_eq_div_pow]
      omega
    rw [hreg, if_pos hlow]
    rfl
  · have hreg : entry >>> 2 = 1 := by
      rw [Nat.shiftRight_eq_div_pow]
      omega
    rw [hreg, if_neg hlow]
    rfl

/-- A write replaces the configuration of its own entry and of no other. -/
theorem entryConfig_write {entry other : Nat} (h : entry < 8) (hother : other < 8)
    (config : BitVec 8) (s : PmpRegs) : (tlkPmpWriteConfig entry config s).entryConfig other =
      if other = entry then config else s.entryConfig other := by
  apply BitVec.eq_of_getLsbD_eq
  intro i hi
  have hpos : 8 * (other % 4) + i < 32 := by omega
  have hbyte : (8 * (other % 4) + i) / 8 = other % 4 := by omega
  have hbit : (8 * (other % 4) + i) % 8 = i := by omega
  have hreplace : ∀ old, (replaceByte old entry config).getLsbD (8 * (other % 4) + i) =
      if other % 4 = entry % 4 then config.getLsbD i else old.getLsbD (8 * (other % 4) + i) := by
    intro old
    rw [getLsbD_replaceByte old entry config hpos, hbyte, hbit]
  rw [tlkPmpWriteConfig_eq h, entryConfig_eq _ hi, apply_ite (BitVec.getLsbD · i),
    entryConfig_eq _ hi]
  by_cases hlow : entry < 4 <;> by_cases hlow' : other < 4
  · have hsame : other % 4 = entry % 4 ↔ other = entry := by omega
    simp only [hlow, hlow', if_true, hreplace, hsame]
  · have hne : other ≠ entry := by omega
    simp only [hlow, hlow', if_true, if_false, hne]
  · have hne : other ≠ entry := by omega
    simp only [hlow, hlow', if_true, if_false, hne]
  · have hsame : other % 4 = entry % 4 ↔ other = entry := by omega
    simp only [hlow, hlow', if_false, hreplace, hsame]

/-- The two values that configuring an entry leaves, and every other entry as it was. -/
theorem tlkPmpConfigureNapot_entries {entry : Nat} (h : entry < 8) (address : BitVec 32)
    (size : BitVec 64) (config : TlkPmpConfig) (s : PmpRegs) {other : Nat} (hother : other < 8) :
    (tlkPmpConfigureNapot entry address size config s).entryConfig other =
        (if other = entry then config.byte ||| (SCHEME_NAPOT <<< 3) else s.entryConfig other) ∧
      (tlkPmpConfigureNapot entry address size config s).addr other =
        if other = entry then napot address size else s.addr other := by
  constructor
  · rw [tlkPmpConfigureNapot, entryConfig_write h hother, tlkPmpWriteAddress, if_pos h]
    rfl
  · rw [tlkPmpConfigureNapot, tlkPmpWriteConfig_addr, tlkPmpWriteAddress, if_pos h]

/-- The scheme does not touch the other fields of the byte. -/
theorem napot_byte (config : TlkPmpConfig) :
    addressMatching (config.byte ||| (SCHEME_NAPOT <<< 3)) = 3#2 ∧
      (config.byte ||| (SCHEME_NAPOT <<< 3)).getLsbD 0 = config.r ∧
      (config.byte ||| (SCHEME_NAPOT <<< 3)).getLsbD 1 = config.w ∧
      (config.byte ||| (SCHEME_NAPOT <<< 3)).getLsbD 2 = config.x ∧
      (config.byte ||| (SCHEME_NAPOT <<< 3)).getLsbD 7 = config.l ∧
      (config.byte ||| (SCHEME_NAPOT <<< 3)).extractLsb' 5 2 = config.reserved.extractLsb' 2 2 := by
  obtain ⟨r, w, x, reserved, l⟩ := config
  revert r w x reserved l
  decide +kernel

/-- Configuring an entry protects exactly the region asked for, with the permissions asked for;
the reserved bits are those of the given configuration. -/
theorem tlkPmpConfigureNapot_protects (entry k : Nat) (base : BitVec 32) (config : TlkPmpConfig)
    (s : PmpRegs) (hentry : entry < 8) (hk : 3 ≤ k) (hk' : k ≤ 32) (hbase : 2 ^ k ∣ base.toNat) :
    let s' := tlkPmpConfigureNapot entry base (BitVec.ofNat 64 (2 ^ k)) config s
    region 32 (s'.addr entry).toNat = (base.toNat, 2 ^ k) ∧
      base.toNat + 2 ^ k ≤ 2 ^ 32 ∧
      addressMatching (s'.entryConfig entry) = 3#2 ∧
      (s'.entryConfig entry).getLsbD 0 = config.r ∧
      (s'.entryConfig entry).getLsbD 1 = config.w ∧
      (s'.entryConfig entry).getLsbD 2 = config.x ∧
      (s'.entryConfig entry).getLsbD 7 = config.l ∧
      (s'.entryConfig entry).extractLsb' 5 2 = config.reserved.extractLsb' 2 2 := by
  intro s'
  obtain ⟨hconfig, haddr⟩ := tlkPmpConfigureNapot_entries hentry base (BitVec.ofNat 64 (2 ^ k))
    config s hentry
  rw [if_pos rfl] at hconfig haddr
  refine ⟨?_, ?_, ?_⟩
  · rw [haddr, napot_toNat hk hk' hbase, region_encode hk (by omega) hbase]
  · have hlt := base.isLt
    obtain ⟨m, hm⟩ := hbase
    have htotal : 2 ^ 32 = 2 ^ k * 2 ^ (32 - k) := (pow_mul_pow_sub 2 hk').symm
    rw [hm, htotal] at hlt
    rw [hm, htotal, ← Nat.mul_succ]
    exact Nat.mul_le_mul_left _ (Nat.lt_of_mul_lt_mul_left hlt)
  · rw [hconfig]
    exact napot_byte config

/-- The whole address space, whose size has no 32-bit form. -/
theorem tlkPmpConfigureNapot_protects_all :
    let s : PmpRegs := ⟨0, 0, fun _ => 0⟩
    let s' := tlkPmpConfigureNapot 7 0#32 (BitVec.ofNat 64 (2 ^ 32)) ⟨true, false, true, 0, true⟩ s
    region 32 (s'.addr 7).toNat = ((0#32).toNat, 2 ^ 32) ∧
      (0#32).toNat + 2 ^ 32 ≤ 2 ^ 32 ∧
      addressMatching (s'.entryConfig 7) = 3#2 ∧
      (s'.entryConfig 7).getLsbD 0 = true ∧
      (s'.entryConfig 7).getLsbD 1 = false ∧
      (s'.entryConfig 7).getLsbD 2 = true ∧
      (s'.entryConfig 7).getLsbD 7 = true ∧
      (s'.entryConfig 7).extractLsb' 5 2 = (0 : BitVec 4).extractLsb' 2 2 :=
  tlkPmpConfigureNapot_protects 7 32 0#32 ⟨true, false, true, 0, true⟩ ⟨0, 0, fun _ => 0⟩
    (by decide) (by decide) (by decide) (by decide)

end UniSdk.Core
