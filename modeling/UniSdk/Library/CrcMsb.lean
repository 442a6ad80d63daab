import Mathlib.Data.List.Basic
import Mathlib.Logic.Function.Iterate

/-!
# Cyclic redundancy checks, most significant bit first

The shift register of an unreflected CRC of any width. A message bit meets the bit that is shifted
out; their sum decides whether the polynomial is folded in. Xoring an aligned block into the
register and stepping is feeding the block's bits one after the other. With an odd polynomial a
step loses nothing, which is what detects bursts no longer than the register.
-/

namespace UniSdk.Library.CrcMsb

variable {w : Nat}

/-- One step of the register without input. -/
def step (poly crc : BitVec w) : BitVec w :=
  if crc.msb then (crc <<< 1) ^^^ poly else crc <<< 1

/-- One step that takes in a message bit. -/
def feed (poly crc : BitVec w) (bit : Bool) : BitVec w :=
  if crc.msb ^^ bit then (crc <<< 1) ^^^ poly else crc <<< 1

/-- A message goes in bit by bit. -/
def feedAll (poly crc : BitVec w) (bits : List Bool) : BitVec w := bits.foldl (feed poly) crc

/-- The first `k` bits from the top. -/
def topBits (k : Nat) (x : BitVec w) : List Bool := (List.range k).map x.getMsbD

theorem feed_false (poly crc : BitVec w) : feed poly crc false = step poly crc := by
  unfold feed step
  rw [Bool.xor_false]

theorem feedAll_append (poly crc : BitVec w) (bits more : List Bool) :
    feedAll poly crc (bits ++ more) = feedAll poly (feedAll poly crc bits) more :=
  List.foldl_append

theorem length_topBits (k : Nat) (x : BitVec w) : (topBits k x).length = k := by
  rw [topBits, List.length_map, List.length_range]

theorem topBits_succ (k : Nat) (x : BitVec w) :
    topBits (k + 1) x = topBits k x ++ [x.getMsbD k] := by
  rw [topBits, List.range_succ, List.map_append]
  rfl

theorem topBits_injective {x y : BitVec w} (h : topBits w x = topBits w y) : x = y := by
  apply BitVec.eq_of_getMsbD_eq
  intro i hi
  have hat := congrArg (·[i]?) h
  simpa [topBits, hi] using hat

/-- What is xored into the register before a step is a message bit at its top, and moves up
below. -/
theorem step_xor (poly crc x : BitVec w) :
    step poly (crc ^^^ x) = feed poly crc x.msb ^^^ (x <<< 1) := by
  unfold step feed
  rw [BitVec.msb_xor, BitVec.shiftLeft_xor_distrib]
  cases crc.msb ^^ x.msb
  · rfl
  · simp only [if_true]
    rw [BitVec.xor_assoc, BitVec.xor_comm (x <<< 1), ← BitVec.xor_assoc]

/-- A block xored into the register is fed bit by bit while it is stepped out. -/
theorem iterate_step_xor (poly crc x : BitVec w) (k : Nat) :
    (step poly)^[k] (crc ^^^ x) = feedAll poly crc (topBits k x) ^^^ (x <<< k) := by
  induction k with
  | zero => simp [topBits, feedAll]
  | succ k ih =>
    have hmsb : (x <<< k).msb = x.getMsbD k := by
      rw [BitVec.msb_shiftLeft]
    rw [Function.iterate_succ_apply', ih, step_xor, hmsb, topBits_succ, feedAll_append,
      ← BitVec.shiftLeft_add]
    rfl

/-- A narrower word in the top of a register, nothing below. -/
def raised (w : Nat) {n : Nat} (x : BitVec n) : BitVec w := x.setWidth w <<< (w - n)

theorem topBits_raised {n : Nat} (hn : n ≤ w) {k : Nat} (x : BitVec n) :
    topBits k (raised w x) = topBits k x := by
  unfold topBits
  congr 1
  funext i
  have hindex : i + (w - n) + n - w = i := by omega
  rw [raised, BitVec.getMsbD_shiftLeft, BitVec.getMsbD_setWidth, hindex,
    decide_eq_true (Nat.le_add_left _ i), Bool.true_and]

/-- A word xored into the top of the register is fed bit by bit while it is stepped out. -/
theorem iterate_step_raised (poly crc : BitVec w) {n : Nat} (hn : n ≤ w) (x : BitVec n) :
    (step poly)^[n] (crc ^^^ raised w x) = feedAll poly crc (topBits n x) := by
  have hout : raised w x <<< n = 0#w := by
    rw [raised, ← BitVec.shiftLeft_add, Nat.sub_add_cancel hn,
      BitVec.shiftLeft_eq_zero (Nat.le_refl w)]
  rw [iterate_step_xor, topBits_raised hn, hout, BitVec.xor_zero]

theorem iterate_step_zero (poly : BitVec w) (k : Nat) : (step poly)^[k] 0#w = 0#w := by
  have hzero : step poly 0#w = 0#w := by simp [step]
  exact Function.iterate_fixed hzero k

/-- A register that is fed itself ends up zero. -/
theorem feedAll_self (poly crc : BitVec w) : feedAll poly crc (topBits w crc) = 0#w := by
  have h := iterate_step_xor poly crc crc w
  rw [BitVec.xor_self, iterate_step_zero, BitVec.shiftLeft_eq_zero (Nat.le_refl w),
    BitVec.xor_zero] at h
  exact h.symm

/-- With an odd polynomial the sum that decided the step can be read off the result. -/
theorem getLsbD_feed {poly : BitVec w} (hodd : poly.getLsbD 0 = true) (crc : BitVec w)
    (bit : Bool) : (feed poly crc bit).getLsbD 0 = (crc.msb ^^ bit) := by
  unfold feed
  cases crc.msb ^^ bit <;> simp [hodd]

/-- A register is its top bit and what the shift keeps. -/
theorem eq_of_msb_shiftLeft {x y : BitVec w} (hmsb : x.msb = y.msb)
    (hshift : x <<< 1 = y <<< 1) : x = y := by
  apply BitVec.eq_of_getMsbD_eq
  intro i hi
  cases i with
  | zero => exact hmsb
  | succ i =>
    have h := congrArg (·.getMsbD i) hshift
    simpa [BitVec.getMsbD_shiftLeft, Nat.add_comm 1 i] using h

/-- A step of an odd polynomial loses nothing of the register. -/
theorem feed_injective {poly : BitVec w} (hodd : poly.getLsbD 0 = true) {x y : BitVec w}
    {bit : Bool} (h : feed poly x bit = feed poly y bit) : x = y := by
  have hlow := congrArg (·.getLsbD 0) h
  simp only [getLsbD_feed hodd] at hlow
  have hmsb : x.msb = y.msb := Bool.xor_left_inj.mp hlow
  unfold feed at h
  rw [hmsb] at h
  apply eq_of_msb_shiftLeft hmsb
  split at h
  · exact (BitVec.xor_left_inj poly).mp h
  · exact h

theorem feedAll_injective {poly : BitVec w} (hodd : poly.getLsbD 0 = true) (bits : List Bool)
    {x y : BitVec w} (h : feedAll poly x bits = feedAll poly y bits) : x = y := by
  induction bits generalizing x y with
  | nil => exact h
  | cons bit bits ih => exact feed_injective hodd (ih h)

theorem iterate_step_injective {poly : BitVec w} (hodd : poly.getLsbD 0 = true) (k : Nat) :
    Function.Injective (step poly)^[k] := by
  apply Function.Injective.iterate
  intro x y h
  rw [← feed_false, ← feed_false] at h
  exact feed_injective hodd h

/-- The bits of a list in the top of a register. -/
def aligned (w : Nat) (bits : List Bool) : BitVec w := raised w (BitVec.ofBoolListBE bits)

theorem topBits_aligned {bits : List Bool} (hlength : bits.length ≤ w) :
    topBits bits.length (aligned w bits) = bits := by
  rw [aligned, topBits_raised hlength]
  apply List.ext_getElem (length_topBits _ _)
  intro i hi hbits
  simp only [topBits, List.getElem_map, List.getElem_range, BitVec.getMsbD_ofBoolListBE]
  rw [List.getD_eq_getElem?_getD, List.getElem?_eq_getElem hbits, Option.getD_some]

/-- Up to a register full of bits can be fed at once. -/
theorem feedAll_eq_iterate (poly crc : BitVec w) {bits : List Bool} (hlength : bits.length ≤ w) :
    feedAll poly crc bits = (step poly)^[bits.length] (crc ^^^ aligned w bits) := by
  conv => lhs; rw [← topBits_aligned hlength]
  rw [aligned, iterate_step_raised poly crc hlength, topBits_raised hlength]

/-- With an odd polynomial no two blocks that fit the register leave the same value. -/
theorem block_injective {poly : BitVec w} (hodd : poly.getLsbD 0 = true) (crc : BitVec w)
    {bits bits' : List Bool} (hlength : bits.length = bits'.length) (hfits : bits.length ≤ w)
    (h : feedAll poly crc bits = feedAll poly crc bits') : bits = bits' := by
  have hfits' : bits'.length ≤ w := hlength ▸ hfits
  rw [feedAll_eq_iterate poly crc hfits, feedAll_eq_iterate poly crc hfits', hlength] at h
  have haligned : aligned w bits = aligned w bits' :=
    (BitVec.xor_right_inj crc).mp (iterate_step_injective hodd _ h)
  rw [← topBits_aligned hfits, ← topBits_aligned hfits', haligned, hlength]

/-- The lists agree at every index outside the `n` from `p`. -/
def AgreeOutside (p n : Nat) (bits bits' : List Bool) : Prop :=
  ∀ i, bits[i]? ≠ bits'[i]? → p ≤ i ∧ i < p + n

instance (p n : Nat) (bits bits' : List Bool) : Decidable (AgreeOutside p n bits bits') :=
  decidable_of_iff
    (∀ i < max bits.length bits'.length, bits[i]? ≠ bits'[i]? → p ≤ i ∧ i < p + n) <| by
    refine ⟨fun h i hi => h i ?_ hi, fun h i _ => h i⟩
    by_contra hout
    have hboth := Nat.max_le.mp (Nat.le_of_not_lt hout)
    exact hi (by rw [List.getElem?_eq_none hboth.1, List.getElem?_eq_none hboth.2])

theorem AgreeOutside.take_eq {p n : Nat} {bits bits' : List Bool}
    (h : AgreeOutside p n bits bits') : bits.take p = bits'.take p := by
  apply List.ext_getElem?
  intro i
  rw [List.getElem?_take, List.getElem?_take]
  split
  · rename_i hi
    by_contra hne
    exact absurd (h i hne).1 (Nat.not_le.mpr hi)
  · rfl

theorem AgreeOutside.drop_eq {p n : Nat} {bits bits' : List Bool}
    (h : AgreeOutside p n bits bits') : bits.drop (p + n) = bits'.drop (p + n) := by
  apply List.ext_getElem?
  intro i
  rw [List.getElem?_drop, List.getElem?_drop]
  by_contra hne
  exact absurd (h (p + n + i) hne).2 (Nat.not_lt.mpr (Nat.le_add_right _ _))

/-- A burst no longer than the register is always detected. -/
theorem burst_detected {poly : BitVec w} (hodd : poly.getLsbD 0 = true) (crc : BitVec w) {p : Nat}
    {bits bits' : List Bool} (hlength : bits.length = bits'.length) (hne : bits ≠ bits')
    (hburst : AgreeOutside p w bits bits') : feedAll poly crc bits ≠ feedAll poly crc bits' := by
  intro h
  have hsplit : ∀ l : List Bool, l = l.take p ++ ((l.drop p).take w ++ l.drop (p + w)) := by
    intro l
    rw [← List.drop_drop, List.take_append_drop, List.take_append_drop]
  rw [hsplit bits, hsplit bits', feedAll_append, feedAll_append, feedAll_append, feedAll_append,
    hburst.take_eq, hburst.drop_eq] at h
  have hblock : (bits.drop p).take w = (bits'.drop p).take w := by
    apply block_injective hodd (feedAll poly crc (bits'.take p)) ?_ (List.length_take_le _ _)
      (feedAll_injective hodd _ h)
    simp only [List.length_take, List.length_drop, hlength]
  apply hne
  rw [hsplit bits, hsplit bits', hburst.take_eq, hburst.drop_eq, hblock]

end UniSdk.Library.CrcMsb
