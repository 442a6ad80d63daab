import Mathlib.Algebra.Order.Ring.Nat
import Mathlib.Data.Nat.Bitwise

/-!
# Reflected cyclic redundancy checks

The shift register of a reflected CRC as a natural number, stepped one bit at a time, and the
table-driven form that takes eight bits at once. A step is linear over `xor` and only shifts a
register whose low bit is clear, so eight steps split into the shifted high part and the eight
steps of the low byte, which is what a table entry holds. Nothing here depends on the width of
the register or on the polynomial.
-/

namespace UniSdk.Library.Crc

/-- One bit of the register: shift out the low bit and, where it was set, fold `poly` in. -/
def bitStep (poly crc : Nat) : Nat :=
  if crc.testBit 0 then (crc >>> 1) ^^^ poly else crc >>> 1

/-- `n` bits of the register. -/
def bitSteps (poly : Nat) : Nat → Nat → Nat
  | 0, crc => crc
  | n + 1, crc => bitSteps poly n (bitStep poly crc)

/-- The checksum bit by bit: every byte enters at the low end and is shifted out. -/
def bitwise (poly init : Nat) (bytes : List UInt8) : Nat :=
  bytes.foldl (fun crc byte => bitSteps poly 8 (crc ^^^ byte.toNat)) init

/-- One byte through a table indexed by the low byte of the register. -/
def tableStep (table : List Nat) (crc : Nat) (byte : UInt8) : Nat :=
  (crc >>> 8) ^^^ table.getD ((crc ^^^ byte.toNat) &&& 0xFF) 0

theorem bitStep_xor (poly x y : Nat) :
    bitStep poly (x ^^^ y) = bitStep poly x ^^^ bitStep poly y := by
  unfold bitStep
  rw [Nat.testBit_xor, Nat.shiftRight_xor_distrib]
  cases hx : x.testBit 0 <;> cases hy : y.testBit 0
  · rfl
  · simp only [Bool.false_xor, Bool.false_eq_true, if_true, if_false]
    exact Nat.xor_assoc _ _ _
  · simp only [Bool.xor_false, Bool.false_eq_true, if_true, if_false]
    rw [Nat.xor_assoc, Nat.xor_comm (y >>> 1), ← Nat.xor_assoc]
  · simp only [Bool.xor_true, Bool.not_true, Bool.false_eq_true, if_true, if_false]
    rw [Nat.xor_assoc, Nat.xor_comm (y >>> 1), ← Nat.xor_assoc poly, Nat.xor_self, Nat.zero_xor]

theorem bitSteps_xor (poly n x y : Nat) :
    bitSteps poly n (x ^^^ y) = bitSteps poly n x ^^^ bitSteps poly n y := by
  induction n generalizing x y with
  | zero => rfl
  | succ n ih => rw [bitSteps, bitStep_xor, ih]; rfl

/-- A register whose low bit is clear is only shifted. -/
theorem bitStep_double (poly x : Nat) : bitStep poly (x <<< 1) = x := by
  unfold bitStep
  rw [Nat.testBit_shiftLeft]
  simp

theorem bitSteps_shiftLeft (poly n x : Nat) : bitSteps poly n (x <<< n) = x := by
  induction n with
  | zero => rfl
  | succ n ih =>
    have hshift : x <<< (n + 1) = (x <<< n) <<< 1 := Nat.shiftLeft_add x n 1
    rw [bitSteps, hshift, bitStep_double, ih]

/-- A number is its high part and its low `n` bits, which do not overlap. -/
theorem split_low (x n : Nat) : x = ((x >>> n) <<< n) ^^^ (x % 2 ^ n) := by
  apply Nat.eq_of_testBit_eq
  intro i
  rw [Nat.testBit_xor, Nat.testBit_shiftLeft, Nat.testBit_shiftRight, Nat.testBit_mod_two_pow]
  by_cases hi : i < n
  · simp [hi, Nat.not_le.mpr hi]
  · have hle : n ≤ i := Nat.le_of_not_lt hi
    simp [hi, hle]

/-- The high part of the register is shifted down, the low part goes through the steps. -/
theorem bitSteps_split (poly n x : Nat) :
    bitSteps poly n x = (x >>> n) ^^^ bitSteps poly n (x % 2 ^ n) := by
  conv => lhs; rw [split_low x n]
  rw [bitSteps_xor, bitSteps_shiftLeft]

/-- A table entry is the eight steps of its index. -/
def IsTable (poly : Nat) (table : List Nat) : Prop :=
  ∀ i, i < 256 → table.getD i 0 = bitSteps poly 8 i

theorem tableStep_eq {poly : Nat} {table : List Nat} (h : IsTable poly table) (crc : Nat)
    (byte : UInt8) : tableStep table crc byte = bitSteps poly 8 (crc ^^^ byte.toNat) := by
  have hmask : (crc ^^^ byte.toNat) &&& 0xFF = (crc ^^^ byte.toNat) % 2 ^ 8 :=
    Nat.and_two_pow_sub_one_eq_mod _ 8
  have hbyte : byte.toNat >>> 8 = 0 := by
    rw [Nat.shiftRight_eq_div_pow]
    exact Nat.div_eq_of_lt byte.toNat_lt
  rw [bitSteps_split, tableStep, hmask,
    h ((crc ^^^ byte.toNat) % 2 ^ 8) (Nat.mod_lt _ (by decide)), Nat.shiftRight_xor_distrib,
    hbyte, Nat.xor_zero]

/-- Over any message the table-driven checksum is the bitwise one. -/
theorem tableStep_foldl {poly : Nat} {table : List Nat} (h : IsTable poly table) (init : Nat)
    (bytes : List UInt8) : bytes.foldl (tableStep table) init = bitwise poly init bytes := by
  induction bytes generalizing init with
  | nil => rfl
  | cons byte bytes ih =>
    rw [List.foldl_cons, ih, tableStep_eq h]
    rfl

theorem bitStep_lt {poly w crc : Nat} (hpoly : poly < 2 ^ w) (h : crc < 2 ^ w) :
    bitStep poly crc < 2 ^ w := by
  have hshift : crc >>> 1 < 2 ^ w := Nat.lt_of_le_of_lt (Nat.shiftRight_le crc 1) h
  unfold bitStep
  split
  · exact Nat.xor_lt_two_pow hshift hpoly
  · exact hshift

theorem bitSteps_lt {poly w crc : Nat} (hpoly : poly < 2 ^ w) (n : Nat) (h : crc < 2 ^ w) :
    bitSteps poly n crc < 2 ^ w := by
  induction n generalizing crc with
  | zero => exact h
  | succ n ih => exact ih (bitStep_lt hpoly h)

/-- The register never outgrows its width. -/
theorem bitwise_lt {poly w init : Nat} (hpoly : poly < 2 ^ w) (hw : 8 ≤ w) (hinit : init < 2 ^ w)
    (bytes : List UInt8) : bitwise poly init bytes < 2 ^ w := by
  induction bytes generalizing init with
  | nil => exact hinit
  | cons byte bytes ih =>
    have hbyte : byte.toNat < 2 ^ w :=
      Nat.lt_of_lt_of_le byte.toNat_lt (Nat.pow_le_pow_right (by decide) hw)
    exact ih (bitSteps_lt hpoly 8 (Nat.xor_lt_two_pow hinit hbyte))

end UniSdk.Library.Crc
