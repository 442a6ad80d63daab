import Mathlib.Algebra.Order.Ring.Nat
import Mathlib.Tactic.Ring

/-!
# Counts at different rates

A span of `d` ticks of a clock that makes `m * k + r` ticks in `m` units of time is counted in units
by dividing by `k`; the remainder `r` of the rate is left out. A span measured on a counter of
limited width and converted to another rate loses the turns of the counter.
-/

namespace UniSdk.Library.Rates

/-- Dividing by the truncated rate does not overstate the span as long as what the rate leaves out
of all units fits into what the division leaves out of the span. -/
theorem div_rate_le_iff (m k r d : Nat) :
    d / k * (m * k + r) ≤ m * d ↔ d / k * r ≤ m * (d % k) := by
  have hspan : m * d = d / k * (m * k) + m * (d % k) := by
    conv_lhs => rw [← Nat.div_add_mod d k]
    ring
  rw [hspan, Nat.mul_add]
  omega

/-- The same with a number of units that is narrowed to less than `b`: a span of `b` units or more
is never overstated. -/
theorem narrow_rate_le_iff {m k r b : Nat} (d : Nat) (hr : r ≤ m) (hk : 0 < k) (hb : 0 < b) :
    d / k % b * (m * k + r) ≤ m * d ↔ b ≤ d / k ∨ d / k * r ≤ m * (d % k) := by
  by_cases hwide : b ≤ d / k
  · refine ⟨fun _ => .inl hwide, fun _ => ?_⟩
    have hrest : d / k % b + b ≤ d / k := by
      have := Nat.div_add_mod (d / k) b
      have hturn : b * 1 ≤ b * (d / k / b) := Nat.mul_le_mul_left b (Nat.div_pos hwide hb)
      omega
    have hsmall : d / k % b * r ≤ b * m :=
      Nat.mul_le_mul (Nat.le_of_lt (Nat.mod_lt _ hb)) hr
    calc d / k % b * (m * k + r) = d / k % b * (m * k) + d / k % b * r := Nat.mul_add ..
      _ ≤ d / k % b * (m * k) + b * (m * k) := by
        refine Nat.add_le_add_left (Nat.le_trans hsmall ?_) _
        exact Nat.mul_le_mul_left b (Nat.le_mul_of_pos_right m hk)
      _ = (d / k % b + b) * (m * k) := (Nat.add_mul ..).symm
      _ ≤ d / k * (m * k) := Nat.mul_le_mul_right _ hrest
      _ = m * (d / k * k) := by ring
      _ ≤ m * d := Nat.mul_le_mul_left m (Nat.div_mul_le_self d k)
  · rw [Nat.mod_eq_of_lt (Nat.lt_of_not_le hwide), div_rate_le_iff]
    exact ⟨.inr, fun h => h.resolve_left hwide⟩

/-- A span measured modulo `b` is converted without loss exactly when it is shorter than `b`, as
long as one turn of the counter is at least one tick of the other clock. -/
theorem scaled_mod_iff {b c t : Nat} (e : Nat) (ht : 0 < t) (hturn : t ≤ b * c) (hb : 0 < b) :
    e * c / t ≤ e % b * c / t ↔ e < b := by
  constructor
  · intro h
    by_contra hge
    have hrest : e % b + b ≤ e := by
      have := Nat.div_add_mod e b
      have hpos : b * 1 ≤ b * (e / b) :=
        Nat.mul_le_mul_left b (Nat.div_pos (Nat.le_of_not_lt hge) hb)
      omega
    have hmore : e % b * c / t + 1 ≤ e * c / t := by
      rw [← Nat.add_div_right _ ht]
      refine Nat.div_le_div_right ?_
      calc e % b * c + t ≤ e % b * c + b * c := Nat.add_le_add_left hturn _
        _ = (e % b + b) * c := (Nat.add_mul ..).symm
        _ ≤ e * c := Nat.mul_le_mul_right c hrest
    omega
  · intro h
    rw [Nat.mod_eq_of_lt h]

end UniSdk.Library.Rates
