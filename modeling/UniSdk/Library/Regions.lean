import Mathlib.Logic.Function.Basic
import UniSdk.Library.Cells

/-!
# Arrays that lie apart in one memory

Each array has a place in the memory, and no cell belongs to two of them. A range that is written
in the memory inside one array is written in that array and in no other.
-/

namespace UniSdk.Library.Regions

open Library.Cells

variable {ι : Type*} {β : Type*}

/-- Where each array lies. -/
structure Placement (ι : Type*) where
  start : ι → Nat
  size : ι → Nat

namespace Placement

variable (p : Placement ι)

/-- The arrays of the list have no cell in common. -/
def Apart (l : List ι) : Prop :=
  ∀ i ∈ l, ∀ j ∈ l, i ≠ j →
    ∀ x y, x < p.size i → y < p.size j → p.start i + x ≠ p.start j + y

/-- The memory holds the arrays of the list. -/
def Holds (l : List ι) (mem : Nat → β) (arrays : ι → Nat → β) : Prop :=
  ∀ i ∈ l, ∀ x, x < p.size i → mem (p.start i + x) = arrays i x

variable {p} {l : List ι} {mem : Nat → β} {arrays : ι → Nat → β}

theorem Holds.range (h : p.Holds l mem arrays) {i : ι} (hi : i ∈ l) {off len : Nat}
    (hfits : off + len ≤ p.size i) :
    (List.range len).map (fun x => mem (p.start i + off + x)) =
      (List.range len).map (fun x => arrays i (off + x)) := by
  refine List.map_congr_left fun x hx => ?_
  have hlt := List.mem_range.mp hx
  rw [Nat.add_assoc]
  exact h i hi (off + x) (by omega)

/-- A write inside one array. -/
theorem Holds.overwrite [DecidableEq ι] (h : p.Holds l mem arrays) (hapart : p.Apart l) {i : ι}
    (hi : i ∈ l) {off len : Nat} (hfits : off + len ≤ p.size i) (data : Nat → β) :
    p.Holds l (overwrite mem (p.start i + off) len data)
      (Function.update arrays i (Cells.overwrite (arrays i) off len data)) := by
  intro j hj x hx
  by_cases hji : j = i
  · subst hji
    rw [Function.update_self]
    by_cases hin : off ≤ x ∧ x < off + len
    · rw [overwrite_inside _ _ (by omega) (by omega), overwrite_inside _ _ hin.1 hin.2,
        Nat.add_sub_add_left]
    · rw [overwrite_outside _ _ (by omega), overwrite_outside _ _ (by omega)]
      exact h j hj x hx
  · rw [Function.update_of_ne hji]
    have hout : p.start j + x < p.start i + off ∨ p.start i + off + len ≤ p.start j + x := by
      by_contra hin
      -- the cell of `j` would be one of `i`
      exact hapart j hj i hi hji x (p.start j + x - p.start i) hx (by omega) (by omega)
    rw [overwrite_outside _ _ hout]
    exact h j hj x hx

end Placement

end UniSdk.Library.Regions
