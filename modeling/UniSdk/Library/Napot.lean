import Mathlib.Algebra.Order.Ring.Nat

/-!
# Naturally aligned power-of-two regions

A region of `2 ^ k` bytes that starts at a multiple of its size fits one address register: the
register holds the address in units of four bytes, and the run of ones at its low end gives the
size. `t` ones stand for `2 ^ (t + 3)` bytes, the bits above the run and its zero for the start.
-/

namespace UniSdk.Library.Napot

/-- The length of the run of ones at the low end of a register of `width` bits. -/
def trailingOnes : Nat → Nat → Nat
  | 0, _ => 0
  | width + 1, reg => if reg % 2 = 1 then trailingOnes width (reg / 2) + 1 else 0

/-- The start and the size that a register value stands for. -/
def region (width reg : Nat) : Nat × Nat :=
  let t := trailingOnes width reg
  (reg / 2 ^ (t + 1) * 2 ^ (t + 1) * 4, 2 ^ (t + 3))

/-- The register value of a region of `2 ^ k` bytes. -/
def encode (base k : Nat) : Nat := base / 4 + (2 ^ (k - 3) - 1)

/-- A run of `t` ones below a zero. -/
theorem trailingOnes_run {width t : Nat} (ht : t < width) (m : Nat) :
    trailingOnes width (m * 2 ^ (t + 1) + (2 ^ t - 1)) = t := by
  induction t generalizing width with
  | zero =>
    cases width with
    | zero => exact absurd ht (Nat.lt_irrefl 0)
    | succ width =>
      rw [trailingOnes, if_neg (by omega)]
  | succ t ih =>
    cases width with
    | zero => exact absurd ht (Nat.not_lt_zero _)
    | succ width =>
      have hpos := Nat.two_pow_pos t
      have hrun : m * 2 ^ (t + 1 + 1) + (2 ^ (t + 1) - 1) =
          2 * (m * 2 ^ (t + 1) + (2 ^ t - 1)) + 1 := by
        rw [pow_succ 2 (t + 1), pow_succ 2 t, ← mul_assoc]
        omega
      have hhalf : (2 * (m * 2 ^ (t + 1) + (2 ^ t - 1)) + 1) / 2 =
          m * 2 ^ (t + 1) + (2 ^ t - 1) := by omega
      rw [hrun, trailingOnes, if_pos (by omega), hhalf, ih (by omega)]

/-- Decoding gives the region back. -/
theorem region_encode {width base k : Nat} (hk : 3 ≤ k) (hwidth : k - 3 < width)
    (hbase : 2 ^ k ∣ base) : region width (encode base k) = (base, 2 ^ k) := by
  obtain ⟨m, rfl⟩ := hbase
  obtain ⟨t, rfl⟩ := Nat.exists_eq_add_of_le' hk
  have hpos := Nat.two_pow_pos t
  have hsize : 2 ^ (t + 3) = 2 ^ (t + 1) * 4 := pow_add 2 (t + 1) 2
  have hstart : 2 ^ (t + 3) * m = m * 2 ^ (t + 1) * 4 := by
    rw [hsize, Nat.mul_comm, mul_assoc]
  have hreg : encode (2 ^ (t + 3) * m) (t + 3) = m * 2 ^ (t + 1) + (2 ^ t - 1) := by
    rw [encode, hstart, Nat.mul_div_cancel _ (by decide), Nat.add_sub_cancel]
  have hlow : 2 ^ t - 1 < 2 ^ (t + 1) := by
    rw [pow_succ]
    omega
  have hhigh : (m * 2 ^ (t + 1) + (2 ^ t - 1)) / 2 ^ (t + 1) = m := by
    rw [Nat.add_comm, Nat.add_mul_div_right _ _ (Nat.two_pow_pos _), Nat.div_eq_of_lt hlow,
      Nat.zero_add]
  rw [hreg, region, trailingOnes_run (by omega)]
  rw [hhigh, hstart]

end UniSdk.Library.Napot
