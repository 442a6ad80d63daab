import Mathlib.Algebra.Order.Ring.Int
import Mathlib.Data.List.Pairwise

/-!
# Spans in a row

Things with a start and a size lie in a row between two bounds when each begins where the one
before ends, or later. Rows can be put behind each other, moved, and repeated at a fixed step;
the things in a row lie apart.
-/

namespace UniSdk.Library.Spans

variable {α : Type*} (start size : α → Int)

/-- The things lie in a row from `lo` to `hi`. -/
def Ordered (lo hi : Int) : List α → Prop
  | [] => lo ≤ hi
  | a :: rest => lo ≤ start a ∧ 0 ≤ size a ∧ Ordered (start a + size a) hi rest

/-- The two have no byte in common. -/
def Apart (a b : α) : Prop := start a + size a ≤ start b ∨ start b + size b ≤ start a

instance (a b : α) : Decidable (Apart start size a b) := inferInstanceAs (Decidable (_ ∨ _))

variable {start size}

theorem Ordered.le {lo hi : Int} {l : List α} (h : Ordered start size lo hi l) : lo ≤ hi := by
  induction l generalizing lo with
  | nil => exact h
  | cons a l ih =>
    obtain ⟨hlo, hsize, hrest⟩ := h
    have hle := ih hrest
    omega

theorem Ordered.weaken {lo lo' hi : Int} {l : List α} (h : Ordered start size lo hi l)
    (hle : lo' ≤ lo) : Ordered start size lo' hi l := by
  cases l with
  | nil => exact hle.trans h
  | cons a l => exact ⟨hle.trans h.1, h.2⟩

theorem Ordered.append {lo mid hi : Int} {l₁ l₂ : List α} (h₁ : Ordered start size lo mid l₁)
    (h₂ : Ordered start size mid hi l₂) : Ordered start size lo hi (l₁ ++ l₂) := by
  induction l₁ generalizing lo with
  | nil => exact h₂.weaken h₁
  | cons a l₁ ih => exact ⟨h₁.1, h₁.2.1, ih h₁.2.2⟩

/-- A row that is moved as a whole. -/
theorem Ordered.map {lo hi k : Int} {l : List α} {f : α → α} (h : Ordered start size lo hi l)
    (hstart : ∀ a, start (f a) = start a + k) (hsize : ∀ a, size (f a) = size a) :
    Ordered start size (lo + k) (hi + k) (l.map f) := by
  induction l generalizing lo with
  | nil =>
    have hle : lo ≤ hi := h
    show lo + k ≤ hi + k
    omega
  | cons a l ih =>
    obtain ⟨hlo, hpos, hrest⟩ := h
    refine ⟨by rw [hstart]; omega, by rw [hsize]; exact hpos, ?_⟩
    rw [hstart, hsize, Int.add_right_comm]
    exact ih hrest

/-- Rows of one length, one behind the other. -/
theorem Ordered.flatMap_range {lo step : Int} {rows : Nat → List α} (n : Nat)
    (h : ∀ i < n, Ordered start size (lo + i * step) (lo + i * step + step) (rows i)) :
    Ordered start size lo (lo + n * step) ((List.range n).flatMap rows) := by
  induction n with
  | zero =>
    show lo ≤ _
    simp
  | succ n ih =>
    rw [List.range_succ, List.flatMap_append, List.flatMap_singleton]
    have hlast := h n (Nat.lt_succ_self n)
    have hend : lo + ((n + 1 : Nat) : Int) * step = lo + n * step + step := by
      rw [Nat.cast_succ, add_mul, one_mul, add_assoc]
    rw [hend]
    exact (ih fun i hi => h i (Nat.lt_succ_of_lt hi)).append hlast

theorem Ordered.start_le {lo hi : Int} {l : List α} (h : Ordered start size lo hi l) {a : α}
    (ha : a ∈ l) : lo ≤ start a := by
  induction l generalizing lo with
  | nil => cases ha
  | cons b l ih =>
    obtain ⟨hlo, hsize, hrest⟩ := h
    rcases List.mem_cons.mp ha with rfl | ha
    · exact hlo
    · have hle := ih hrest ha
      omega

/-- What lies in a row lies apart. -/
theorem Ordered.pairwise {lo hi : Int} {l : List α} (h : Ordered start size lo hi l) :
    l.Pairwise (Apart start size) := by
  induction l generalizing lo with
  | nil => exact List.Pairwise.nil
  | cons a l ih => exact List.pairwise_cons.mpr ⟨fun b hb => .inl (h.2.2.start_le hb), ih h.2.2⟩

variable (start size) in
/-- The things cover the span from `lo` to `hi` without gap or overlap. -/
def Tiles (lo hi : Int) : List α → Prop
  | [] => lo = hi
  | a :: rest => start a = lo ∧ Tiles (start a + size a) hi rest

theorem Tiles.append {lo mid hi : Int} {l₁ l₂ : List α} (h₁ : Tiles start size lo mid l₁)
    (h₂ : Tiles start size mid hi l₂) : Tiles start size lo hi (l₁ ++ l₂) := by
  induction l₁ generalizing lo with
  | nil =>
    have heq : lo = mid := h₁
    rwa [heq]
  | cons a l₁ ih => exact ⟨h₁.1, ih h₁.2⟩

/-- Pieces of one size at that size's distance. -/
theorem Tiles.map_range {lo step : Int} {f : Nat → α} (n : Nat)
    (h : ∀ i < n, start (f i) = lo + i * step ∧ size (f i) = step) :
    Tiles start size lo (lo + n * step) ((List.range n).map f) := by
  induction n with
  | zero =>
    show lo = _
    simp
  | succ n ih =>
    obtain ⟨hstart, hsize⟩ := h n (Nat.lt_succ_self n)
    have hend : lo + ((n + 1 : Nat) : Int) * step = lo + n * step + step := by
      rw [Nat.cast_succ, add_mul, one_mul, add_assoc]
    rw [List.range_succ, List.map_append, hend]
    refine (ih fun i hi => h i (Nat.lt_succ_of_lt hi)).append ⟨hstart, ?_⟩
    show start (f n) + size (f n) = _
    rw [hstart, hsize]

end UniSdk.Library.Spans
