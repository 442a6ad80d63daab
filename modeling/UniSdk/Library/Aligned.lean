import Mathlib.Algebra.Order.Ring.Nat

/-!
# Aligned blocks of addresses

`addr - addr % page` is the start of the block that holds `addr`. Two addresses
lie in one block when their quotients by the block size agree.
-/

namespace UniSdk.Library.Aligned

theorem blockStart_eq (page addr : Nat) : addr - addr % page = page * (addr / page) := by
  have := Nat.div_add_mod addr page
  omega

theorem blockStart_mod (page addr : Nat) : (addr - addr % page) % page = 0 := by
  rw [blockStart_eq, Nat.mul_mod_right]

/-- A block whose address lies above an aligned bound starts above it. -/
theorem le_blockStart {page lo addr : Nat} (hlo : lo % page = 0) (h : lo ≤ addr) :
    lo ≤ addr - addr % page := by
  rw [blockStart_eq, ← Nat.mul_div_cancel' (Nat.dvd_of_mod_eq_zero hlo)]
  exact Nat.mul_le_mul_left page (Nat.div_le_div_right h)

/-- A block whose address lies below an aligned bound ends below it. -/
theorem blockEnd_le {page hi addr : Nat} (hhi : hi % page = 0) (h : addr < hi) :
    addr - addr % page + page ≤ hi := by
  obtain ⟨b, rfl⟩ := Nat.dvd_of_mod_eq_zero hhi
  rw [blockStart_eq, ← Nat.mul_succ]
  exact Nat.mul_le_mul_left page (Nat.succ_le_of_lt (Nat.div_lt_of_lt_mul h))

/-- Same block, as an interval. -/
theorem div_eq_iff_block {page addr j : Nat} (hp : 0 < page) :
    j / page = addr / page ↔
      addr - addr % page ≤ j ∧ j < addr - addr % page + page := by
  rw [blockStart_eq, Nat.div_eq_iff hp]
  constructor
  · intro h
    rw [Nat.mul_comm]
    omega
  · intro h
    rw [Nat.mul_comm] at h
    omega

/-- Blocks do not straddle an aligned interval. -/
theorem block_inside {page lo hi k j : Nat} (hp : 0 < page) (hlo : lo % page = 0)
    (hhi : hi % page = 0) (hk : lo ≤ k) (hk' : k < hi) (h : k / page = j / page) :
    lo ≤ j ∧ j < hi := by
  have hblock := (div_eq_iff_block hp).mp h.symm
  have hstart := le_blockStart hlo hk
  have hend := blockEnd_le hhi hk'
  omega

end UniSdk.Library.Aligned
