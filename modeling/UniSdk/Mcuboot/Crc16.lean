import UniSdk.Library.CrcMsb
import Mathlib.Data.UInt

/-!
# The checksum of a serial packet

`crc16_ccitt` of the MCUboot port, as a shift register of sixteen bits that takes a message most
significant bit first.
-/

namespace UniSdk.Mcuboot.Crc16

open UniSdk.Library.CrcMsb

/-- One pass of the inner loop. -/
def crcBit (crc : BitVec 16) : BitVec 16 :=
  if crc &&& 0x8000#16 ≠ 0#16 then (crc <<< 1) ^^^ 0x1021#16 else crc <<< 1

/-- One pass of the outer loop: the byte enters at the top and eight bits are shifted out. -/
def crcByte (crc : BitVec 16) (byte : UInt8) : BitVec 16 :=
  (List.range 8).foldl (fun crc _ => crcBit crc) (crc ^^^ (byte.toBitVec.setWidth 16 <<< 8))

def crc16Ccitt (crc : BitVec 16) (buf : List UInt8) : BitVec 16 := buf.foldl crcByte crc

/-- A message as bits, most significant bit of each byte first. -/
def messageBits (message : List UInt8) : List Bool :=
  message.flatMap fun byte => topBits 8 byte.toBitVec

/-- The two bytes of a checksum as they follow its message in a packet. -/
def bigEndian (crc : BitVec 16) : List UInt8 :=
  [UInt8.ofBitVec ((crc >>> 8).setWidth 8), UInt8.ofBitVec (crc.setWidth 8)]

theorem crcBit_eq_step (crc : BitVec 16) : crcBit crc = step 0x1021#16 crc := by
  have hmask : crc &&& 0x8000#16 ≠ 0#16 ↔ crc.msb = true := by
    have hpow : 0x8000#16 = BitVec.twoPow 16 15 := by decide
    rw [hpow, BitVec.and_twoPow, BitVec.msb_eq_getLsbD_last]
    cases crc.getLsbD (16 - 1) <;> decide
  simp only [crcBit, step, hmask]

theorem crcByte_eq_feedAll (crc : BitVec 16) (byte : UInt8) :
    crcByte crc byte = feedAll 0x1021#16 crc (topBits 8 byte.toBitVec) := by
  have hsteps : crcByte crc byte = (step 0x1021#16)^[8] (crc ^^^ raised 16 byte.toBitVec) := by
    unfold crcByte
    simp only [crcBit_eq_step]
    rfl
  rw [hsteps, iterate_step_raised _ _ (by decide)]

theorem crc16Ccitt_eq_feedAll (crc : BitVec 16) (message : List UInt8) :
    crc16Ccitt crc message = feedAll 0x1021#16 crc (messageBits message) := by
  induction message generalizing crc with
  | nil => rfl
  | cons byte message ih =>
    have hbits : messageBits (byte :: message)
        = topBits 8 byte.toBitVec ++ messageBits message := List.flatMap_cons
    rw [hbits, feedAll_append, ← crcByte_eq_feedAll, ← ih]
    rfl

theorem crc16Ccitt_append (crc : BitVec 16) (message more : List UInt8) :
    crc16Ccitt crc (message ++ more) = crc16Ccitt (crc16Ccitt crc message) more :=
  List.foldl_append

theorem messageBits_bigEndian (crc : BitVec 16) : messageBits (bigEndian crc) = topBits 16 crc := by
  simp [messageBits, bigEndian, topBits, List.range_succ]

/-- A checksum appended to its message leaves the register empty, and the checksum of a
concatenation goes on from the one of its first part. -/
theorem crc16Ccitt_residue (crc : BitVec 16) (message more : List UInt8) :
    crc16Ccitt crc (message ++ bigEndian (crc16Ccitt crc message)) = 0#16 ∧
      crc16Ccitt crc (message ++ more) = crc16Ccitt (crc16Ccitt crc message) more := by
  constructor
  · rw [crc16Ccitt_append, crc16Ccitt_eq_feedAll _ (bigEndian _), messageBits_bigEndian,
      feedAll_self]
  · exact crc16Ccitt_append crc message more

example : crc16Ccitt 0 ("123456789".toUTF8.toList) = 0x31C3#16 := by decide +kernel

theorem length_messageBits (message : List UInt8) :
    (messageBits message).length = 8 * message.length := by
  induction message with
  | nil => rfl
  | cons byte message ih =>
    simp only [messageBits, List.flatMap_cons, List.length_append, length_topBits,
      List.length_cons] at ih ⊢
    omega

theorem messageBits_injective {message other : List UInt8}
    (h : messageBits message = messageBits other) : message = other := by
  have hlength := congrArg List.length h
  rw [length_messageBits, length_messageBits] at hlength
  induction message generalizing other with
  | nil =>
    rw [List.length_nil] at hlength
    exact (List.length_eq_zero_iff.mp (by omega)).symm
  | cons byte message ih =>
    cases other with
    | nil => simp at hlength
    | cons byte' other =>
      simp only [messageBits, List.flatMap_cons] at h
      obtain ⟨hbyte, hrest⟩ := List.append_inj h (by rw [length_topBits, length_topBits])
      rw [List.length_cons, List.length_cons] at hlength
      rw [UInt8.toBitVec_inj.mp (topBits_injective hbyte), ih hrest (by omega)]

/-- Messages of one length that differ only within sixteen consecutive bits have different
checksums. -/
theorem crc16Ccitt_burst (crc : BitVec 16) (message other : List UInt8) (p : Nat)
    (hlength : message.length = other.length) (hne : message ≠ other)
    (hburst : AgreeOutside p 16 (messageBits message) (messageBits other)) :
    crc16Ccitt crc message ≠ crc16Ccitt crc other := by
  have hodd : (0x1021#16).getLsbD 0 = true := by decide
  have hbits : messageBits message ≠ messageBits other := fun h => hne (messageBits_injective h)
  rw [crc16Ccitt_eq_feedAll, crc16Ccitt_eq_feedAll]
  apply burst_detected hodd crc ?_ hbits hburst
  rw [length_messageBits, length_messageBits, hlength]

/-- Two bytes, four bits wrong, sixteen bits from the first to the last of them. -/
theorem crc16Ccitt_burst_example :
    crc16Ccitt 0xFFFF#16 [0x12, 0x34, 0x56] ≠ crc16Ccitt 0xFFFF#16 [0x12, 0xB5, 0x55] :=
  crc16Ccitt_burst 0xFFFF#16 [0x12, 0x34, 0x56] [0x12, 0xB5, 0x55] 8 rfl (by decide)
    (by decide +kernel)

end UniSdk.Mcuboot.Crc16
