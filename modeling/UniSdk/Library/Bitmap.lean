/-!
# Bitmaps in a word

A word of `w` bits whose bits are tested, set and cleared by masks of `v` bits, as in a language
that computes in a wider type than the one it stores.
-/

namespace UniSdk.Library.Bitmap

variable {w v i j : Nat}

def isSet (x : BitVec w) (mask : BitVec v) : Bool := x.setWidth v &&& mask != 0#v

def set (x : BitVec w) (mask : BitVec v) : BitVec w := (x.setWidth v ||| mask).setWidth w

def clear (x : BitVec w) (mask : BitVec v) : BitVec w := (x.setWidth v &&& ~~~mask).setWidth w

theorem isSet_twoPow (hwv : w ≤ v) (x : BitVec w) (hi : i < w) :
    isSet x (BitVec.twoPow v i) = x.getLsbD i := by
  have hiv : i < v := Nat.lt_of_lt_of_le hi hwv
  rw [isSet, BitVec.and_twoPow, BitVec.getLsbD_setWidth]
  cases hset : x.getLsbD i with
  | false => simp
  | true =>
    have hne : BitVec.twoPow v i ≠ 0#v := by
      intro hzero
      have hbit := congrArg (fun y => y.getLsbD i) hzero
      simp [hiv] at hbit
    simp [hiv, hne]

theorem getLsbD_set (hwv : w ≤ v) (x : BitVec w) (hj : j < w) :
    (set x (BitVec.twoPow v i)).getLsbD j = (x.getLsbD j || decide (i = j)) := by
  have hjv : j < v := Nat.lt_of_lt_of_le hj hwv
  rw [set, BitVec.getLsbD_setWidth, BitVec.getLsbD_or, BitVec.getLsbD_setWidth,
    BitVec.getLsbD_twoPow]
  by_cases hij : i = j
  · simp [hij, hj, hjv]
  · simp [hij, hj, hjv]

theorem getLsbD_clear (hwv : w ≤ v) (x : BitVec w) (hj : j < w) :
    (clear x (BitVec.twoPow v i)).getLsbD j = (x.getLsbD j && !decide (i = j)) := by
  have hjv : j < v := Nat.lt_of_lt_of_le hj hwv
  rw [clear, BitVec.getLsbD_setWidth, BitVec.getLsbD_and, BitVec.getLsbD_setWidth,
    BitVec.getLsbD_not, BitVec.getLsbD_twoPow]
  by_cases hij : i = j
  · simp [hij, hj, hjv]
  · simp [hij, hj, hjv]

end UniSdk.Library.Bitmap
