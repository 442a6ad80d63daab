import Mathlib.Algebra.Order.Ring.Nat

/-!
# Hexadecimal numbers as text

Numbers in upper-case hexadecimal digits, as character codes, with zeros in front up to a width,
and a reader for them. The reader gives back every number that was printed with enough digits.
Bytes are pairs of lower-case digits, which are read back as well.
-/

namespace UniSdk.Library.HexText

/-- The digit of a value below 16. -/
def hexChar (d : Nat) : Nat := if d < 10 then 48 + d else 55 + d

/-- The digits of a number, without zeros in front, and at most `places` of them. -/
def hexDigits : Nat → Nat → List Nat
  | 0, _ => []
  | places + 1, n =>
    if n < 16 then [hexChar n] else hexDigits places (n / 16) ++ [hexChar (n % 16)]

/-- `%0<width>X` for a number of at most `places` digits. -/
def hexPadded (places width n : Nat) : List Nat :=
  List.replicate (width - (hexDigits places n).length) 48 ++ hexDigits places n

def readHexChar (c : Nat) : Option Nat :=
  if 48 ≤ c ∧ c ≤ 57 then some (c - 48)
  else if 65 ≤ c ∧ c ≤ 70 then some (c - 55)
  else none

/-- The number that digits stand for, behind the digits that have led to `n`. -/
def readHex : Nat → List Nat → Option Nat
  | n, [] => some n
  | n, c :: cs => (readHexChar c).bind fun d => readHex (n * 16 + d) cs

theorem readHexChar_hexChar {d : Nat} (h : d < 16) : readHexChar (hexChar d) = some d := by
  unfold readHexChar hexChar
  split
  · rw [if_pos (by omega), Nat.add_sub_cancel_left]
  · rw [if_neg (by omega), if_pos (by omega), Nat.add_sub_cancel_left]

theorem readHex_append (n : Nat) (cs ds : List Nat) :
    readHex n (cs ++ ds) = (readHex n cs).bind fun m => readHex m ds := by
  induction cs generalizing n with
  | nil => rfl
  | cons c cs ih =>
    rw [List.cons_append, readHex, readHex]
    cases readHexChar c with
    | none => rfl
    | some d => exact ih _

theorem readHex_zeros (k : Nat) (cs : List Nat) :
    readHex 0 (List.replicate k 48 ++ cs) = readHex 0 cs := by
  induction k with
  | zero => rfl
  | succ k ih => exact ih

theorem readHex_hexDigits {places n : Nat} (h : n < 16 ^ places) :
    readHex 0 (hexDigits places n) = some n := by
  induction places generalizing n with
  | zero =>
    have hzero : n = 0 := by simpa using h
    rw [hzero]
    rfl
  | succ places ih =>
    rw [hexDigits]
    split
    · next hdigit =>
      rw [readHex, readHexChar_hexChar hdigit]
      simp [readHex]
    · have hlast : n % 16 < 16 := Nat.mod_lt n (by decide)
      have hrest : n / 16 < 16 ^ places := by
        rw [pow_succ] at h
        omega
      rw [readHex_append, ih hrest, Option.bind_some, readHex, readHexChar_hexChar hlast,
        Option.bind_some, readHex, Nat.div_add_mod']

/-- What was printed is read back. -/
theorem readHex_hexPadded {places n : Nat} (h : n < 16 ^ places) (width : Nat) :
    readHex 0 (hexPadded places width n) = some n := by
  rw [hexPadded, readHex_zeros, readHex_hexDigits h]

theorem length_hexDigits_le (places n : Nat) : (hexDigits places n).length ≤ places := by
  induction places generalizing n with
  | zero => exact Nat.le_refl 0
  | succ places ih =>
    rw [hexDigits]
    split
    · exact Nat.succ_le_succ (Nat.zero_le places)
    · rw [List.length_append]
      exact Nat.succ_le_succ (ih _)

theorem length_hexPadded_le {places width : Nat} (h : width ≤ places) (n : Nat) :
    (hexPadded places width n).length ≤ places := by
  have hdigits := length_hexDigits_le places n
  rw [hexPadded, List.length_append, List.length_replicate]
  omega

theorem length_hexDigits_le_of_lt {places width n : Nat} (hwidth : 0 < width)
    (h : n < 16 ^ width) : (hexDigits places n).length ≤ width := by
  induction places generalizing n width with
  | zero => exact Nat.zero_le width
  | succ places ih =>
    rw [hexDigits]
    split
    · exact hwidth
    · next hlong =>
      obtain ⟨width, rfl⟩ : ∃ k, width = k + 1 := ⟨width - 1, by omega⟩
      rw [pow_succ] at h
      have hpos : 0 < width := by
        by_contra hzero
        obtain rfl : width = 0 := by omega
        omega
      rw [List.length_append]
      exact Nat.succ_le_succ (ih hpos (by omega))

/-- A number that fits the width takes exactly the width. -/
theorem length_hexPadded_of_lt {width n : Nat} (hwidth : 0 < width) (h : n < 16 ^ width)
    (places : Nat) : (hexPadded places width n).length = width := by
  have hdigits := @length_hexDigits_le_of_lt places width n hwidth h
  rw [hexPadded, List.length_append, List.length_replicate]
  omega

theorem hexChar_mem {d : Nat} (h : d < 16) :
    48 ≤ hexChar d ∧ hexChar d ≤ 57 ∨ 65 ≤ hexChar d ∧ hexChar d ≤ 70 := by
  unfold hexChar
  split <;> omega

theorem mem_hexDigits {places n c : Nat} (h : c ∈ hexDigits places n) :
    48 ≤ c ∧ c ≤ 57 ∨ 65 ≤ c ∧ c ≤ 70 := by
  induction places generalizing n with
  | zero => exact absurd h List.not_mem_nil
  | succ places ih =>
    rw [hexDigits] at h
    split at h
    · next hdigit =>
      rw [List.mem_singleton.mp h]
      exact hexChar_mem hdigit
    · rcases List.mem_append.mp h with hrest | hlast
      · exact ih hrest
      · rw [List.mem_singleton.mp hlast]
        exact hexChar_mem (Nat.mod_lt n (by decide))

/-- Only digits are printed. -/
theorem mem_hexPadded {places width n c : Nat} (h : c ∈ hexPadded places width n) :
    48 ≤ c ∧ c ≤ 57 ∨ 65 ≤ c ∧ c ≤ 70 := by
  rcases List.mem_append.mp h with hzero | hdigit
  · rw [List.eq_of_mem_replicate hzero]
    omega
  · exact mem_hexDigits hdigit

/-! ## Bytes -/

/-- The lower-case digit of a value below 16. -/
def lowerHexChar (d : Nat) : Nat := if d < 10 then 48 + d else 87 + d

def readLowerHexChar (c : Nat) : Option Nat :=
  if 48 ≤ c ∧ c ≤ 57 then some (c - 48)
  else if 97 ≤ c ∧ c ≤ 102 then some (c - 87)
  else none

/-- Two digits for each byte, the high one first. -/
def hexPairs (bytes : List UInt8) : List Nat :=
  bytes.flatMap fun b => [lowerHexChar (b.toNat / 16), lowerHexChar (b.toNat % 16)]

/-- The bytes that pairs of digits stand for. -/
def readPairs : List Nat → Option (List UInt8)
  | [] => some []
  | [_] => none
  | h :: l :: text =>
    (readLowerHexChar h).bind fun high => (readLowerHexChar l).bind fun low =>
      (readPairs text).map fun bytes => UInt8.ofNat (high * 16 + low) :: bytes

theorem readLowerHexChar_lowerHexChar {d : Nat} (h : d < 16) :
    readLowerHexChar (lowerHexChar d) = some d := by
  unfold readLowerHexChar lowerHexChar
  split
  · rw [if_pos (by omega), Nat.add_sub_cancel_left]
  · rw [if_neg (by omega), if_pos (by omega), Nat.add_sub_cancel_left]

theorem hexPairs_cons (b : UInt8) (bytes : List UInt8) : hexPairs (b :: bytes) =
    lowerHexChar (b.toNat / 16) :: lowerHexChar (b.toNat % 16) :: hexPairs bytes := rfl

/-- The bytes are read back. -/
theorem readPairs_hexPairs (bytes : List UInt8) : readPairs (hexPairs bytes) = some bytes := by
  induction bytes with
  | nil => rfl
  | cons b bytes ih =>
    have hbyte := b.toNat_lt
    have hhigh : b.toNat / 16 < 16 := by omega
    have hlow : b.toNat % 16 < 16 := Nat.mod_lt _ (by decide)
    rw [hexPairs_cons, readPairs, readLowerHexChar_lowerHexChar hhigh, Option.bind_some,
      readLowerHexChar_lowerHexChar hlow, Option.bind_some, ih, Option.map_some,
      Nat.div_add_mod', UInt8.ofNat_toNat]

end UniSdk.Library.HexText
