import UniSdk.Library.HexText
import UniSdk.Library.Words
import Mathlib.Logic.Function.Basic

/-!
# Bytes as text

`tlk_str_utils_convert_buf_to_hex` writes two digits for each byte while the pair and the
terminator leave room for one more character, and closes the text with a NUL.
-/

namespace UniSdk.Common

open Library.HexText Library.Words

/-- `tlk_str_utils_convert_byte_to_char` -/
def tlkStrUtilsConvertByteToChar (bt : UInt8) (high : Bool) : Nat :=
  let bt := if high then bt >>> 4 else bt &&& 0xf
  if bt < 0xa then 48 + bt.toNat else 97 + bt.toNat - 0xa

/-- The loop over the bytes that are left, with `result` characters written. -/
def convertLoop (dstLen : Nat) : List UInt8 → Nat → (Nat → Nat) → Nat × (Nat → Nat)
  | [], result, dst => (result, dst)
  | bt :: src, result, dst =>
    if dstLen ≤ u32 (result + 3) then (result, dst)
    else
      let dst := Function.update dst result (tlkStrUtilsConvertByteToChar bt true)
      let dst := Function.update dst (result + 1) (tlkStrUtilsConvertByteToChar bt false)
      convertLoop dstLen src (result + 2) dst

/-- `tlk_str_utils_convert_buf_to_hex`: the result, and the memory from `dst` on. -/
def tlkStrUtilsConvertBufToHex (dst : Nat → Nat) (dstLen : Nat) (src : List UInt8) :
    Int × (Nat → Nat) :=
  if dstLen = 0 then (-1, dst)
  else
    let r := convertLoop dstLen src 0 dst
    (r.1, Function.update r.2 r.1 0)

/-- What a caller expects: as many whole bytes as fit in front of the terminator are there as text
that can be read back, and nothing behind the terminator is written. -/
structure Converts (dst : Nat → Nat) (src : List UInt8) (k : Nat) (r : Int × (Nat → Nat)) :
    Prop where
  result : r.1 = 2 * k
  text : (List.range (2 * k)).map r.2 = hexPairs (src.take k)
  reads_back : readPairs ((List.range (2 * k)).map r.2) = some (src.take k)
  terminated : r.2 (2 * k) = 0
  inside : ∀ j, 2 * k < j → r.2 j = dst j

theorem convertByteToChar_eq (bt : UInt8) :
    tlkStrUtilsConvertByteToChar bt true = lowerHexChar (bt.toNat / 16) ∧
      tlkStrUtilsConvertByteToChar bt false = lowerHexChar (bt.toNat % 16) := by
  have hhigh : (bt >>> 4).toNat = bt.toNat / 16 := by
    rw [UInt8.toNat_shiftRight, Nat.shiftRight_eq_div_pow]
    rfl
  have hlow : (bt &&& 0xf).toNat = bt.toNat % 16 := by
    rw [UInt8.toNat_and]
    exact Nat.and_two_pow_sub_one_eq_mod bt.toNat 4
  unfold tlkStrUtilsConvertByteToChar lowerHexChar
  simp only [if_true, Bool.false_eq_true, if_false, UInt8.lt_iff_toNat_lt, hhigh, hlow]
  constructor
  · show (if bt.toNat / 16 < 10 then _ else _) = _
    split
    · rfl
    · omega
  · show (if bt.toNat % 16 < 10 then _ else _) = _
    split
    · rfl
    · omega

/-- How many bytes the loop converts from `result` on. -/
def converted (dstLen srcLen result : Nat) : Nat := min srcLen ((dstLen - 2 - result) / 2)

theorem convertLoop_spec {dstLen : Nat} {src : List UInt8} {result : Nat}
    (hsize : result + 2 * src.length < 2 ^ 31 - 1) (dst : Nat → Nat) :
    (convertLoop dstLen src result dst).1 = result + 2 * converted dstLen src.length result ∧
      (List.range' result (2 * converted dstLen src.length result)).map
          (convertLoop dstLen src result dst).2 =
        hexPairs (src.take (converted dstLen src.length result)) ∧
      ∀ j, j < result ∨ result + 2 * converted dstLen src.length result ≤ j →
        (convertLoop dstLen src result dst).2 j = dst j := by
  induction src generalizing result dst with
  | nil =>
    have hm : converted dstLen ([] : List UInt8).length result = 0 := Nat.zero_min _
    rw [hm]
    exact ⟨rfl, rfl, fun _ _ => rfl⟩
  | cons bt src ih =>
    rw [List.length_cons] at hsize ⊢
    have hwrap : u32 (result + 3) = result + 3 := u32_of_lt (by omega)
    rw [convertLoop, hwrap]
    by_cases hstop : dstLen ≤ result + 3
    · have hm : converted dstLen (src.length + 1) result = 0 := by
        unfold converted
        omega
      rw [if_pos hstop, hm]
      exact ⟨rfl, rfl, fun _ _ => rfl⟩
    · have hm : converted dstLen (src.length + 1) result =
          converted dstLen src.length (result + 2) + 1 := by
        unfold converted
        omega
      obtain ⟨hresult, htext, hkept⟩ := @ih (result + 2) (by omega)
        (Function.update (Function.update dst result (tlkStrUtilsConvertByteToChar bt true))
          (result + 1) (tlkStrUtilsConvertByteToChar bt false))
      obtain ⟨hhigh, hlow⟩ := convertByteToChar_eq bt
      have hfirst := (hkept result (Or.inl (by omega))).trans
        ((Function.update_of_ne (by omega) _ _).trans (Function.update_self _ _ _))
      have hsecond := (hkept (result + 1) (Or.inl (by omega))).trans (Function.update_self _ _ _)
      rw [if_neg hstop, hm]
      dsimp only
      refine ⟨?_, ?_, ?_⟩
      · rw [hresult]
        omega
      · rw [Nat.mul_succ, List.range'_succ, List.range'_succ, List.map_cons, List.map_cons, hfirst,
          hsecond, htext, hhigh, hlow, List.take_succ_cons, hexPairs_cons]
      · intro j hj
        rw [hkept j (by omega), Function.update_of_ne (by omega), Function.update_of_ne (by omega)]

/-- As many bytes are converted as leave room for one character more than the terminator. -/
theorem convertBufToHex_converts {dstLen : Nat} {src : List UInt8} (hdst : 1 ≤ dstLen)
    (hsize : 2 * src.length < 2 ^ 31 - 1) (dst : Nat → Nat) :
    Converts dst src (converted dstLen src.length 0) (tlkStrUtilsConvertBufToHex dst dstLen src) := by
  obtain ⟨hresult, htext, hkept⟩ := @convertLoop_spec dstLen src 0 (by omega) dst
  rw [Nat.zero_add] at hresult hkept
  have htake : (List.range (2 * converted dstLen src.length 0)).map
      (Function.update (convertLoop dstLen src 0 dst).2 (2 * converted dstLen src.length 0) 0) =
        hexPairs (src.take (converted dstLen src.length 0)) := by
    rw [← htext, ← List.range_eq_range']
    apply List.map_congr_left
    intro j hj
    exact Function.update_of_ne (Nat.ne_of_lt (List.mem_range.mp hj)) _ _
  rw [tlkStrUtilsConvertBufToHex, if_neg (by omega)]
  dsimp only
  rw [hresult]
  refine ⟨rfl, htake, ?_, Function.update_self _ _ _, ?_⟩
  · show readPairs ((List.range _).map (Function.update _ _ _)) = _
    rw [htake, readPairs_hexPairs]
  · intro j hj
    show Function.update _ _ _ j = _
    rw [Function.update_of_ne (by omega), hkept j (Or.inr (by omega))]

/-- **All bytes that fit are converted unless the buffer has room for exactly the last of them.**
The test leaves one character unused, so the text of a buffer of odd size is a byte short where
the source has that byte. -/
theorem tlkStrUtilsConvertBufToHex_whole (dst : Nat → Nat) (dstLen : Nat) (src : List UInt8)
    (hdst : 1 ≤ dstLen) (hsize : 2 * src.length < 2 ^ 31 - 1) :
    Converts dst src (min src.length ((dstLen - 1) / 2))
        (tlkStrUtilsConvertBufToHex dst dstLen src) ↔
      dstLen % 2 = 0 ∨ dstLen = 1 ∨ src.length < (dstLen - 1) / 2 := by
  have hall := convertBufToHex_converts hdst hsize dst
  have hcount : converted dstLen src.length 0 = min src.length ((dstLen - 1) / 2) ↔
      dstLen % 2 = 0 ∨ dstLen = 1 ∨ src.length < (dstLen - 1) / 2 := by
    unfold converted
    omega
  rw [← hcount]
  constructor
  · intro h
    have hsame := hall.result.symm.trans h.result
    omega
  · intro h
    rw [← h]
    exact hall

/-- Two bytes and the buffer that a text of four characters needs with one to spare. -/
theorem tlkStrUtilsConvertBufToHex_whole_spare :
    Converts (fun _ => 7) [0x12, 0xAB] (min 2 ((6 - 1) / 2))
        (tlkStrUtilsConvertBufToHex (fun _ => 7) 6 [0x12, 0xAB]) ↔
      6 % 2 = 0 ∨ 6 = 1 ∨ 2 < (6 - 1) / 2 :=
  tlkStrUtilsConvertBufToHex_whole (fun _ => 7) 6 [0x12, 0xAB] (by decide) (by decide)

/-- With exactly the five characters that are needed the second byte is dropped. -/
theorem tlkStrUtilsConvertBufToHex_drops :
    (tlkStrUtilsConvertBufToHex (fun _ => 7) 5 [0x12, 0xAB]).1 = 2 ∧
      ¬ Converts (fun _ => 7) [0x12, 0xAB] (min 2 ((5 - 1) / 2))
        (tlkStrUtilsConvertBufToHex (fun _ => 7) 5 [0x12, 0xAB]) := by
  refine ⟨by decide, fun h => ?_⟩
  exact absurd h.result (by decide)

end UniSdk.Common
