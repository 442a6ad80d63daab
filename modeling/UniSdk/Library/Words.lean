import Mathlib.Algebra.Order.Ring.Nat

/-!
# Fixed-width words as naturals

Unsigned 16-, 32- and 64-bit arithmetic as reduction modulo a power of two, and the
signed test `(int64_t)(a - b) >= 0` that free-running counters are compared with.
-/

namespace UniSdk.Library.Words

def u16 (n : Nat) : Nat := n % 2 ^ 16

def u32 (n : Nat) : Nat := n % 2 ^ 32

def u64 (n : Nat) : Nat := n % 2 ^ 64

def UINT64_MAX : Nat := 2 ^ 64 - 1

theorem u32_of_lt {n : Nat} (h : n < 2 ^ 32) : u32 n = n := Nat.mod_eq_of_lt h

theorem u64_of_lt {n : Nat} (h : n < 2 ^ 64) : u64 n = n := Nat.mod_eq_of_lt h

theorem u64_lt (n : Nat) : u64 n < 2 ^ 64 := Nat.mod_lt n (by decide)

/-- `(int64_t)(a - b) >= 0` on 64-bit words. -/
def notBefore (a b : Nat) : Bool := decide (u64 (a + (2 ^ 64 - b)) < 2 ^ 63)

/-- Below the sign bit the test is the order. -/
theorem notBefore_iff {a b : Nat} (ha : a < 2 ^ 63) (hb : b < 2 ^ 63) :
    notBefore a b = true ↔ b ≤ a := by
  unfold notBefore u64
  rw [decide_eq_true_eq]
  omega

/-- The signed test goes wrong from half a turn ahead on, and only there. -/
theorem notBefore_le_iff {a b : Nat} (ha : a < 2 ^ 63) :
    (notBefore a b = true → b ≤ a) ↔ b ≤ a + 2 ^ 63 := by
  unfold notBefore u64
  rw [decide_eq_true_eq]
  omega

/-- Less than half a turn ahead the test is the order. -/
theorem notBefore_iff_of_near {a b : Nat} (ha : a < 2 ^ 63) (hb : b ≤ a + 2 ^ 63) :
    notBefore a b = true ↔ b ≤ a :=
  ⟨(notBefore_le_iff ha).mpr hb, fun h => (notBefore_iff ha (Nat.lt_of_le_of_lt h ha)).mpr h⟩

/-- A counter below the sign bit is not before the largest word: the difference
wraps to a small number. -/
theorem notBefore_max {a : Nat} (ha : a < 2 ^ 63 - 1) : notBefore a UINT64_MAX = true := by
  unfold notBefore u64 UINT64_MAX
  rw [decide_eq_true_eq]
  omega

/-- Of three readings of a rising counter, with the first and the last on one high word, the
middle one is that high word joined to its low word. -/
theorem join_words {x y z : Nat} (hxy : x ≤ y) (hyz : y ≤ z) (h : x / 2 ^ 32 = z / 2 ^ 32) :
    x / 2 ^ 32 * 2 ^ 32 + y % 2 ^ 32 = y := by
  omega

/-- An address and a signed offset add up to the wrapped sum. -/
theorem toNat_add_toInt {w : Nat} (x y : BitVec w) :
    ((x + y).toNat : Int) = (x.toNat + y.toInt) % 2 ^ w := by
  have hcast : ((2 ^ w : Nat) : Int) = 2 ^ w := by push_cast; rfl
  rw [BitVec.toNat_add, BitVec.toInt_eq_toNat_bmod, Int.natCast_emod, hcast, Int.natCast_add,
    Int.add_emod, Int.add_emod _ (Int.bmod _ _), ← hcast, Int.bmod_emod]

end UniSdk.Library.Words
