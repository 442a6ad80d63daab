import Mathlib.Algebra.Order.Floor.Semiring
import Mathlib.Data.Rat.Floor
import Mathlib.Tactic.Linarith

/-!
# Subtracting readings of a counter that turns over

A counter of `w` values runs freely; `p` of its ticks are one unit of time. A reading is the number
of whole units in the counter, so it starts over with every turn of the counter and not after `w`
units. The difference of two readings modulo `w` is the time between them as long as the counter does
not turn over in between, and again only after `p` turns.
-/

namespace UniSdk.Library.Turns

variable {w p : Nat}

/-- How often the counter has turned over after `x` ticks. -/
def turns (w : Nat) (x : ℚ) : Nat := ⌊x⌋₊ / w

/-- The whole units in the counter after `x` ticks. -/
def reading (w p : Nat) (x : ℚ) : Nat := ⌊x⌋₊ % w / p

theorem reading_lt (hw : 0 < w) (x : ℚ) : reading w p x < w :=
  Nat.lt_of_le_of_lt (Nat.div_le_self _ _) (Nat.mod_lt _ hw)

theorem turns_mono {x y : ℚ} (h : x ≤ y) : turns w x ≤ turns w y :=
  Nat.div_le_div_right (Nat.floor_mono h)

/-- A position of the counter: whole turns, whole units, and the rest of a unit. -/
theorem exists_rest (hw : 0 < w) (hp : 0 < p) {x : ℚ} (hx : 0 ≤ x) :
    ∃ s : ℚ, 0 ≤ s ∧ s < p ∧ x = w * turns w x + p * reading w p x + s ∧
      p * reading w p x + s < w := by
  have hfloor := Nat.floor_le hx
  have hceil := Nat.lt_floor_add_one x
  have hturn : w * turns w x + (p * reading w p x + ⌊x⌋₊ % w % p) = ⌊x⌋₊ := by
    rw [reading, turns, Nat.div_add_mod, Nat.div_add_mod]
  have hunit : p * reading w p x + ⌊x⌋₊ % w % p + 1 ≤ w := by
    rw [reading, Nat.div_add_mod]
    exact Nat.mod_lt _ hw
  have hrest : ⌊x⌋₊ % w % p + 1 ≤ p := Nat.mod_lt _ hp
  have hturn' : (w * turns w x + (p * reading w p x + (⌊x⌋₊ % w % p : ℕ)) : ℚ) = ⌊x⌋₊ := by
    exact_mod_cast hturn
  have hunit' : (p * reading w p x + (⌊x⌋₊ % w % p : ℕ) + 1 : ℚ) ≤ w := by exact_mod_cast hunit
  have hrest' : ((⌊x⌋₊ % w % p : ℕ) + 1 : ℚ) ≤ p := by exact_mod_cast hrest
  have hpos : (0 : ℚ) ≤ (⌊x⌋₊ % w % p : ℕ) := Nat.cast_nonneg _
  exact ⟨(⌊x⌋₊ % w % p : ℕ) + (x - ⌊x⌋₊), by linarith, by linarith, by linarith, by linarith⟩

/-- Whole turns that differ differ by the width at least. -/
theorem turn_le {w a b : Nat} (h : a < b) : (w * a + w : ℚ) ≤ w * b := by
  have hle : w * a + w ≤ w * b := Nat.mul_le_mul_left w h
  exact_mod_cast hle

/-- **The difference of two readings is the time between them exactly when the counter has not turned
over in between**, or when it has turned over `p` times and stands in an earlier unit. -/
theorem difference_iff (hp : 0 < p) (hw : 3 * p ≤ w) {x y : ℚ} (hx : 0 ≤ x) (hxy : x ≤ y)
    (hspan : (y - x) / p < w) :
    |(((reading w p y + (w - reading w p x)) % w : ℕ) : ℚ) - (y - x) / p| < 2 ↔
      turns w y = turns w x ∨ (turns w y = turns w x + p ∧ reading w p y < reading w p x) := by
  have hw0 : 0 < w := by omega
  have hp' : (0 : ℚ) < p := by exact_mod_cast hp
  have hw' : (3 * p : ℚ) ≤ w := by exact_mod_cast hw
  obtain ⟨s, hs0, hs, hxs, hturn⟩ := exists_rest hw0 hp hx
  obtain ⟨t, ht0, ht, hyt, -⟩ := exists_rest hw0 hp (hx.trans hxy)
  have hturns := turns_mono (w := w) hxy
  have hry := reading_lt (p := p) hw0 y
  have hrx := reading_lt (p := p) hw0 x
  rw [div_lt_iff₀ hp'] at hspan
  have hscale : ∀ d : ℚ, |d - (y - x) / p| < 2 ↔ |p * d - (y - x)| < 2 * p := by
    intro d
    have hfactor : d - (y - x) / p = (p * d - (y - x)) / p := by field_simp
    rw [hfactor, abs_div, abs_of_pos hp', div_lt_iff₀ hp']
  rw [hscale, abs_lt]
  generalize turns w x = a at *
  generalize turns w y = b at *
  generalize reading w p x = m at *
  generalize reading w p y = n at *
  by_cases hmn : m ≤ n
  · -- The later reading is not smaller: every turn in between is missing in the difference.
    have hmod : (n + (w - m)) % w = n - m := by
      rw [show n + (w - m) = n - m + w by omega, Nat.add_mod_right, Nat.mod_eq_of_lt (by omega)]
    rw [hmod, Nat.cast_sub hmn]
    constructor
    · rintro ⟨hlow, -⟩
      refine .inl (le_antisymm ?_ hturns)
      by_contra hlt
      have hturn := turn_le (w := w) (Nat.lt_of_not_le hlt)
      linarith
    · rintro (rfl | ⟨-, hnm⟩)
      · constructor <;> linarith
      · omega
  · -- The later reading is smaller: the difference counts `w` units for the turns in between.
    have hmod : (n + (w - m)) % w = n + (w - m) := Nat.mod_eq_of_lt (by omega)
    have hunits : (p * n + p : ℚ) ≤ p * m := turn_le (Nat.lt_of_not_le hmn)
    rw [hmod, Nat.cast_add, Nat.cast_sub (by omega)]
    constructor
    · rintro ⟨-, hhigh⟩
      refine .inr ⟨?_, Nat.lt_of_not_le hmn⟩
      rcases Nat.lt_trichotomy b (a + p) with hless | hsame | hmore
      · have hless' := turn_le (w := w) hless
        push_cast at hless'
        linarith
      · exact hsame
      · have hmore' := turn_le (w := w) hmore
        have hn : (0 : ℚ) ≤ p * n := by positivity
        push_cast at hmore'
        linarith
    · rintro (rfl | ⟨rfl, -⟩)
      · exfalso
        linarith
      · push_cast at *
        constructor <;> linarith

end UniSdk.Library.Turns
