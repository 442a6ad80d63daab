import UniSdk.Library.Crc
import Mathlib.Data.List.Basic

/-!
# The firmware image `tlk_check_fw.py` writes

`check_firmware` pads the binary to 16 bytes, patches the header, stores the final size and
appends the checksum of everything before it. The four patches go into one buffer, so each is
followed by what it leaves in place; the checksum comes from a literal table, whose entries are
checked once against eight bitwise steps.
-/

namespace UniSdk.Scripts

open UniSdk.Library

def FLAG_FW_CHECK : UInt8 := 0x5D

def FW_CHECK_AGTHM2 : UInt8 := 0x02

def INPUT_BIN_SIZE_MAX : Nat := 4 * 1024 * 1024

/-- `CRC32_TABLE`. -/
def crc32Table : List Nat :=
  [0x00000000, 0x77073096, 0xEE0E612C, 0x990951BA, 0x076DC419, 0x706AF48F, 0xE963A535, 0x9E6495A3,
    0x0EDB8832, 0x79DCB8A4, 0xE0D5E91E, 0x97D2D988, 0x09B64C2B, 0x7EB17CBD, 0xE7B82D07, 0x90BF1D91,
    0x1DB71064, 0x6AB020F2, 0xF3B97148, 0x84BE41DE, 0x1ADAD47D, 0x6DDDE4EB, 0xF4D4B551, 0x83D385C7,
    0x136C9856, 0x646BA8C0, 0xFD62F97A, 0x8A65C9EC, 0x14015C4F, 0x63066CD9, 0xFA0F3D63, 0x8D080DF5,
    0x3B6E20C8, 0x4C69105E, 0xD56041E4, 0xA2677172, 0x3C03E4D1, 0x4B04D447, 0xD20D85FD, 0xA50AB56B,
    0x35B5A8FA, 0x42B2986C, 0xDBBBC9D6, 0xACBCF940, 0x32D86CE3, 0x45DF5C75, 0xDCD60DCF, 0xABD13D59,
    0x26D930AC, 0x51DE003A, 0xC8D75180, 0xBFD06116, 0x21B4F4B5, 0x56B3C423, 0xCFBA9599, 0xB8BDA50F,
    0x2802B89E, 0x5F058808, 0xC60CD9B2, 0xB10BE924, 0x2F6F7C87, 0x58684C11, 0xC1611DAB, 0xB6662D3D,
    0x76DC4190, 0x01DB7106, 0x98D220BC, 0xEFD5102A, 0x71B18589, 0x06B6B51F, 0x9FBFE4A5, 0xE8B8D433,
    0x7807C9A2, 0x0F00F934, 0x9609A88E, 0xE10E9818, 0x7F6A0DBB, 0x086D3D2D, 0x91646C97, 0xE6635C01,
    0x6B6B51F4, 0x1C6C6162, 0x856530D8, 0xF262004E, 0x6C0695ED, 0x1B01A57B, 0x8208F4C1, 0xF50FC457,
    0x65B0D9C6, 0x12B7E950, 0x8BBEB8EA, 0xFCB9887C, 0x62DD1DDF, 0x15DA2D49, 0x8CD37CF3, 0xFBD44C65,
    0x4DB26158, 0x3AB551CE, 0xA3BC0074, 0xD4BB30E2, 0x4ADFA541, 0x3DD895D7, 0xA4D1C46D, 0xD3D6F4FB,
    0x4369E96A, 0x346ED9FC, 0xAD678846, 0xDA60B8D0, 0x44042D73, 0x33031DE5, 0xAA0A4C5F, 0xDD0D7CC9,
    0x5005713C, 0x270241AA, 0xBE0B1010, 0xC90C2086, 0x5768B525, 0x206F85B3, 0xB966D409, 0xCE61E49F,
    0x5EDEF90E, 0x29D9C998, 0xB0D09822, 0xC7D7A8B4, 0x59B33D17, 0x2EB40D81, 0xB7BD5C3B, 0xC0BA6CAD,
    0xEDB88320, 0x9ABFB3B6, 0x03B6E20C, 0x74B1D29A, 0xEAD54739, 0x9DD277AF, 0x04DB2615, 0x73DC1683,
    0xE3630B12, 0x94643B84, 0x0D6D6A3E, 0x7A6A5AA8, 0xE40ECF0B, 0x9309FF9D, 0x0A00AE27, 0x7D079EB1,
    0xF00F9344, 0x8708A3D2, 0x1E01F268, 0x6906C2FE, 0xF762575D, 0x806567CB, 0x196C3671, 0x6E6B06E7,
    0xFED41B76, 0x89D32BE0, 0x10DA7A5A, 0x67DD4ACC, 0xF9B9DF6F, 0x8EBEEFF9, 0x17B7BE43, 0x60B08ED5,
    0xD6D6A3E8, 0xA1D1937E, 0x38D8C2C4, 0x4FDFF252, 0xD1BB67F1, 0xA6BC5767, 0x3FB506DD, 0x48B2364B,
    0xD80D2BDA, 0xAF0A1B4C, 0x36034AF6, 0x41047A60, 0xDF60EFC3, 0xA867DF55, 0x316E8EEF, 0x4669BE79,
    0xCB61B38C, 0xBC66831A, 0x256FD2A0, 0x5268E236, 0xCC0C7795, 0xBB0B4703, 0x220216B9, 0x5505262F,
    0xC5BA3BBE, 0xB2BD0B28, 0x2BB45A92, 0x5CB36A04, 0xC2D7FFA7, 0xB5D0CF31, 0x2CD99E8B, 0x5BDEAE1D,
    0x9B64C2B0, 0xEC63F226, 0x756AA39C, 0x026D930A, 0x9C0906A9, 0xEB0E363F, 0x72076785, 0x05005713,
    0x95BF4A82, 0xE2B87A14, 0x7BB12BAE, 0x0CB61B38, 0x92D28E9B, 0xE5D5BE0D, 0x7CDCEFB7, 0x0BDBDF21,
    0x86D3D2D4, 0xF1D4E242, 0x68DDB3F8, 0x1FDA836E, 0x81BE16CD, 0xF6B9265B, 0x6FB077E1, 0x18B74777,
    0x88085AE6, 0xFF0F6A70, 0x66063BCA, 0x11010B5C, 0x8F659EFF, 0xF862AE69, 0x616BFFD3, 0x166CCF45,
    0xA00AE278, 0xD70DD2EE, 0x4E048354, 0x3903B3C2, 0xA7672661, 0xD06016F7, 0x4969474D, 0x3E6E77DB,
    0xAED16A4A, 0xD9D65ADC, 0x40DF0B66, 0x37D83BF0, 0xA9BCAE53, 0xDEBB9EC5, 0x47B2CF7F, 0x30B5FFE9,
    0xBDBDF21C, 0xCABAC28A, 0x53B39330, 0x24B4A3A6, 0xBAD03605, 0xCDD70693, 0x54DE5729, 0x23D967BF,
    0xB3667A2E, 0xC4614AB8, 0x5D681B02, 0x2A6F2B94, 0xB40BBE37, 0xC30C8EA1, 0x5A05DF1B, 0x2D02EF8D]

/-- `crc32_cal`: one table lookup for each byte. -/
def crc32Cal (crcInit : Nat) (inputData : List UInt8) (table : List Nat) : Nat :=
  inputData.foldl (Crc.tableStep table) crcInit

/-- `buffer[at + k] = (value >> 8 * k) & 0xFF` for `k` from 0 to 3. -/
def putLe32 (buffer : List UInt8) (offset value : Nat) : List UInt8 :=
  (((buffer.set offset (UInt8.ofNat (value &&& 0xFF))).set (offset + 1)
    (UInt8.ofNat ((value >>> 8) &&& 0xFF))).set (offset + 2)
    (UInt8.ofNat ((value >>> 16) &&& 0xFF))).set (offset + 3)
    (UInt8.ofNat ((value >>> 24) &&& 0xFF))

/-- `for i in range(count): buffer[offset + i] = 0xFF`. -/
def padFF (buffer : List UInt8) (offset : Nat) : Nat → List UInt8
  | 0 => buffer
  | count + 1 => (padFF buffer offset count).set (offset + count) 0xFF

/-- What a call leaves: the lines printed, the file it writes, if it does, and the result. -/
structure FirmwareCheck where
  printed : List String
  written : Option (List UInt8)
  passed : Bool

/-- `replenish_cnt` after the test `if replenish_cnt:`. -/
def replenishCnt (fileSize : Nat) : Nat :=
  if fileSize % 16 = 0 then 0 else 16 - fileSize % 16

def finalSize (fileSize : Nat) : Nat := fileSize + 4 + replenishCnt fileSize

/-- The buffer when the checksum is taken: data, padding, header and size. -/
def patchedBuffer (data : List UInt8) : List UInt8 :=
  let buffer := List.replicate (INPUT_BIN_SIZE_MAX + 20) (0 : UInt8)
  let buffer := data ++ buffer.drop data.length
  let buffer := padFF buffer data.length (replenishCnt data.length)
  let buffer := buffer.set 6 FLAG_FW_CHECK
  let buffer := buffer.set 7 FW_CHECK_AGTHM2
  putLe32 buffer 24 (finalSize data.length)

/-- `check_firmware` on the content of the file. -/
def checkFirmware (data : List UInt8) : FirmwareCheck :=
  let fileSize := data.length
  if INPUT_BIN_SIZE_MAX < fileSize then
    { printed := ["Error: File size " ++ toString fileSize ++ " is more than limit " ++
        toString INPUT_BIN_SIZE_MAX], written := none, passed := false }
  else if fileSize / 16 < 2 then
    { printed := ["File size: " ++ toString fileSize], written := none, passed := true }
  else
    let buffer := patchedBuffer data
    let crcResult := crc32Cal 0xFFFFFFFF (buffer.take (finalSize fileSize - 4)) crc32Table
    let buffer := putLe32 buffer (finalSize fileSize - 4) crcResult
    { printed := ["File size: " ++ toString fileSize, "Output done!"],
      written := some (buffer.take (finalSize fileSize)), passed := true }

/-- The little-endian word stored at `offset`. -/
def le32At (buffer : List UInt8) (offset : Nat) : Nat :=
  (buffer.getD offset 0).toNat + (buffer.getD (offset + 1) 0).toNat * 2 ^ 8 +
    (buffer.getD (offset + 2) 0).toNat * 2 ^ 16 + (buffer.getD (offset + 3) 0).toNat * 2 ^ 24

/-! ### The writes, each with its frame -/

@[simp] theorem putLe32_length (buffer : List UInt8) (offset value : Nat) :
    (putLe32 buffer offset value).length = buffer.length := by
  simp only [putLe32, List.length_set]

theorem putLe32_outside {buffer : List UInt8} {offset value i : Nat}
    (h : i < offset ∨ offset + 3 < i) : (putLe32 buffer offset value)[i]? = buffer[i]? := by
  unfold putLe32
  rw [List.getElem?_set_ne (by omega), List.getElem?_set_ne (by omega),
    List.getElem?_set_ne (by omega), List.getElem?_set_ne (by omega)]

/-- The byte at `offset + k` is the `k`-th byte of the value. -/
theorem putLe32_byte {buffer : List UInt8} {offset value k : Nat} (hk : k < 4)
    (hfit : offset + 4 ≤ buffer.length) :
    (putLe32 buffer offset value)[offset + k]? =
      some (UInt8.ofNat ((value >>> (8 * k)) &&& 0xFF)) := by
  have hcases : k = 0 ∨ k = 1 ∨ k = 2 ∨ k = 3 := by omega
  rcases hcases with rfl | rfl | rfl | rfl <;> unfold putLe32
  · rw [List.getElem?_set_ne (by omega), List.getElem?_set_ne (by omega),
      List.getElem?_set_ne (by omega)]
    exact List.getElem?_set_self (by omega)
  · rw [List.getElem?_set_ne (by omega), List.getElem?_set_ne (by omega),
      List.getElem?_set_self (by rw [List.length_set]; omega)]
  · rw [List.getElem?_set_ne (by omega),
      List.getElem?_set_self (by simp only [List.length_set]; omega)]
  · rw [List.getElem?_set_self (by simp only [List.length_set]; omega)]

theorem byte_toNat (value k : Nat) :
    (UInt8.ofNat ((value >>> k) &&& 0xFF)).toNat = value / 2 ^ k % 2 ^ 8 := by
  have hmask : (value >>> k) &&& 0xFF = value >>> k % 2 ^ 8 := Nat.and_two_pow_sub_one_eq_mod _ 8
  rw [UInt8.toNat_ofNat', hmask, Nat.mod_mod, Nat.shiftRight_eq_div_pow]

/-- A word of 32 bits is read back as it was stored. -/
theorem le32At_putLe32 {buffer : List UInt8} {offset value : Nat} (hvalue : value < 2 ^ 32)
    (hfit : offset + 4 ≤ buffer.length) : le32At (putLe32 buffer offset value) offset = value := by
  have hbyte : ∀ k, k < 4 → ((putLe32 buffer offset value).getD (offset + k) 0).toNat =
      value / 2 ^ (8 * k) % 2 ^ 8 := by
    intro k hk
    rw [List.getD_eq_getElem?_getD, putLe32_byte hk hfit, Option.getD_some, byte_toNat]
  have h0 := hbyte 0 (by decide)
  have h1 := hbyte 1 (by decide)
  have h2 := hbyte 2 (by decide)
  have h3 := hbyte 3 (by decide)
  rw [Nat.add_zero] at h0
  unfold le32At
  rw [h0, h1, h2, h3]
  omega

theorem le32At_congr {left right : List UInt8} {offset : Nat}
    (h : ∀ k, k < 4 → left[offset + k]? = right[offset + k]?) :
    le32At left offset = le32At right offset := by
  have h0 := h 0 (by decide)
  rw [Nat.add_zero] at h0
  simp only [le32At, List.getD_eq_getElem?_getD, h0, h 1 (by decide), h 2 (by decide),
    h 3 (by decide)]

@[simp] theorem padFF_length (buffer : List UInt8) (offset count : Nat) :
    (padFF buffer offset count).length = buffer.length := by
  induction count with
  | zero => rfl
  | succ count ih => rw [padFF, List.length_set, ih]

theorem padFF_outside {buffer : List UInt8} {offset count i : Nat}
    (h : i < offset ∨ offset + count ≤ i) : (padFF buffer offset count)[i]? = buffer[i]? := by
  induction count with
  | zero => rfl
  | succ count ih =>
    rw [padFF, List.getElem?_set_ne (by omega)]
    exact ih (by omega)

theorem padFF_inside {buffer : List UInt8} {offset count i : Nat} (hlo : offset ≤ i)
    (hhi : i < offset + count) (hfit : offset + count ≤ buffer.length) :
    (padFF buffer offset count)[i]? = some 0xFF := by
  induction count with
  | zero => omega
  | succ count ih =>
    rw [padFF]
    by_cases hlast : offset + count = i
    · rw [hlast]
      exact List.getElem?_set_self (by rw [padFF_length]; omega)
    · rw [List.getElem?_set_ne hlast]
      exact ih (by omega) (by omega)

/-! ### The buffer the checksum is taken over -/

theorem finalSize_mod (fileSize : Nat) : finalSize fileSize % 16 = 4 := by
  unfold finalSize replenishCnt
  split <;> omega

theorem finalSize_le {fileSize : Nat} (h : fileSize ≤ INPUT_BIN_SIZE_MAX) :
    finalSize fileSize ≤ INPUT_BIN_SIZE_MAX + 4 := by
  unfold finalSize replenishCnt
  unfold INPUT_BIN_SIZE_MAX at *
  split <;> omega

theorem patchedBuffer_length {data : List UInt8} (h : data.length ≤ INPUT_BIN_SIZE_MAX) :
    (patchedBuffer data).length = INPUT_BIN_SIZE_MAX + 20 := by
  simp only [patchedBuffer, putLe32_length, List.length_set, padFF_length, List.length_append,
    List.length_drop, List.length_replicate]
  omega

/-- The header's two bytes; the size word is written after them, above them. -/
theorem patchedBuffer_header {data : List UInt8} (h : data.length ≤ INPUT_BIN_SIZE_MAX) :
    (patchedBuffer data)[6]? = some FLAG_FW_CHECK ∧
      (patchedBuffer data)[7]? = some FW_CHECK_AGTHM2 := by
  have hlen := patchedBuffer_length h
  simp only [patchedBuffer, putLe32_length, List.length_set] at hlen
  unfold patchedBuffer
  constructor
  · rw [putLe32_outside (by omega), List.getElem?_set_ne (by omega),
      List.getElem?_set_self (by omega)]
  · rw [putLe32_outside (by omega), List.getElem?_set_self (by rw [List.length_set]; omega)]

theorem patchedBuffer_size {data : List UInt8} (h : data.length ≤ INPUT_BIN_SIZE_MAX) :
    le32At (patchedBuffer data) 24 = finalSize data.length := by
  have hlen := patchedBuffer_length h
  have hsize := finalSize_le h
  have hlimit : INPUT_BIN_SIZE_MAX = 4194304 := rfl
  simp only [patchedBuffer, putLe32_length] at hlen
  exact le32At_putLe32 (by omega) (by omega)

/-- Outside the header fields the data stand as they were read. -/
theorem patchedBuffer_data {data : List UInt8} {i : Nat} (hi : i < data.length) (h6 : i ≠ 6)
    (h7 : i ≠ 7) (hsize : i < 24 ∨ 27 < i) : (patchedBuffer data)[i]? = data[i]? := by
  unfold patchedBuffer
  rw [putLe32_outside hsize, List.getElem?_set_ne (Ne.symm h7), List.getElem?_set_ne (Ne.symm h6),
    padFF_outside (Or.inl hi), List.getElem?_append_left hi]

theorem patchedBuffer_padding {data : List UInt8} {i : Nat} (hmin : 32 ≤ data.length)
    (hmax : data.length ≤ INPUT_BIN_SIZE_MAX) (hlo : data.length ≤ i)
    (hhi : i < finalSize data.length - 4) : (patchedBuffer data)[i]? = some 0xFF := by
  have hsize := finalSize_le hmax
  unfold finalSize at hhi hsize
  unfold patchedBuffer
  rw [putLe32_outside (by omega), List.getElem?_set_ne (by omega), List.getElem?_set_ne (by omega)]
  refine padFF_inside hlo (by omega) ?_
  simp only [List.length_append, List.length_drop, List.length_replicate]
  omega

/-! ### The checksum -/

def CRC32_POLYNOMIAL : Nat := 0xEDB88320

set_option maxRecDepth 4000 in
theorem crc32Table_entries :
    (List.range 256).all
      (fun i => crc32Table.getD i 0 == Crc.bitSteps CRC32_POLYNOMIAL 8 i) = true := by
  decide +kernel

/-- Every literal of the table is the eight bitwise steps of its index. -/
theorem crc32Table_isTable : Crc.IsTable CRC32_POLYNOMIAL crc32Table := by
  intro i hi
  have hentry := List.all_eq_true.mp crc32Table_entries i (List.mem_range.mpr hi)
  exact beq_iff_eq.mp hentry

theorem crc32Cal_eq (init : Nat) (bytes : List UInt8) :
    crc32Cal init bytes crc32Table = Crc.bitwise CRC32_POLYNOMIAL init bytes :=
  Crc.tableStep_foldl crc32Table_isTable init bytes

theorem crc_lt (bytes : List UInt8) :
    Crc.bitwise CRC32_POLYNOMIAL 0xFFFFFFFF bytes < 2 ^ 32 :=
  Crc.bitwise_lt (by decide) (by decide) (by decide) bytes

/-! ### The image -/

/-- The image: the patched buffer up to the checksum, then the checksum. -/
def image (data : List UInt8) : List UInt8 :=
  let size := finalSize data.length
  (putLe32 (patchedBuffer data) (size - 4)
    (Crc.bitwise CRC32_POLYNOMIAL 0xFFFFFFFF ((patchedBuffer data).take (size - 4)))).take size

theorem checkFirmware_written {data : List UInt8} (hmin : 32 ≤ data.length)
    (hmax : data.length ≤ INPUT_BIN_SIZE_MAX) :
    (checkFirmware data).written = some (image data) ∧ (checkFirmware data).passed = true := by
  have hbig : ¬ INPUT_BIN_SIZE_MAX < data.length := by omega
  have hsmall : ¬ data.length / 16 < 2 := by omega
  simp only [checkFirmware, if_neg hbig, if_neg hsmall, crc32Cal_eq, image, and_self]

theorem image_length {data : List UInt8} (hmax : data.length ≤ INPUT_BIN_SIZE_MAX) :
    (image data).length = finalSize data.length := by
  have hsize := finalSize_le hmax
  simp only [image, List.length_take, putLe32_length, patchedBuffer_length hmax]
  omega

/-- Below the checksum the image is the patched buffer. -/
theorem image_below {data : List UInt8} {i : Nat} (hi : i < finalSize data.length - 4) :
    (image data)[i]? = (patchedBuffer data)[i]? := by
  unfold image
  rw [List.getElem?_take_of_lt (by omega), putLe32_outside (Or.inl hi)]

theorem image_take {data : List UInt8} :
    (image data).take (finalSize data.length - 4) =
      (patchedBuffer data).take (finalSize data.length - 4) := by
  apply List.ext_getElem?
  intro i
  by_cases hi : i < finalSize data.length - 4
  · rw [List.getElem?_take_of_lt hi, List.getElem?_take_of_lt hi, image_below hi]
  · rw [List.getElem?_take, List.getElem?_take, if_neg hi, if_neg hi]

/-- The last word of the image is the checksum of what stands before it. -/
theorem image_checksum {data : List UInt8} (hmax : data.length ≤ INPUT_BIN_SIZE_MAX) :
    le32At (image data) (finalSize data.length - 4) =
      Crc.bitwise CRC32_POLYNOMIAL 0xFFFFFFFF
        ((image data).take (finalSize data.length - 4)) := by
  have hfour : 4 ≤ finalSize data.length := by unfold finalSize; omega
  have hsize := finalSize_le hmax
  have hfit : finalSize data.length - 4 + 4 ≤ (patchedBuffer data).length := by
    rw [patchedBuffer_length hmax]
    omega
  rw [image_take]
  calc le32At (image data) (finalSize data.length - 4)
      = le32At (putLe32 (patchedBuffer data) (finalSize data.length - 4)
          (Crc.bitwise CRC32_POLYNOMIAL 0xFFFFFFFF
            ((patchedBuffer data).take (finalSize data.length - 4))))
          (finalSize data.length - 4) :=
        le32At_congr (fun k hk => List.getElem?_take_of_lt (by omega))
    _ = _ := le32At_putLe32 (crc_lt _) hfit

/-- **A binary of 32 bytes to 4 MB becomes a self-consistent image.** -/
theorem checkFirmware_image (data : List UInt8) (hmin : 32 ≤ data.length)
    (hmax : data.length ≤ INPUT_BIN_SIZE_MAX) :
    ∃ out, (checkFirmware data).written = some out ∧ (checkFirmware data).passed = true ∧
      out.length = le32At out 24 ∧ out.length % 16 = 4 ∧
      data.length + 4 ≤ out.length ∧ out.length < data.length + 20 ∧
      le32At out (out.length - 4) =
        Crc.bitwise 0xEDB88320 0xFFFFFFFF (out.take (out.length - 4)) ∧
      out[6]? = some 0x5D ∧ out[7]? = some 0x02 ∧
      (∀ i, i < data.length → i ≠ 6 → i ≠ 7 → i < 24 ∨ 27 < i → out[i]? = data[i]?) ∧
      ∀ i, data.length ≤ i → i < out.length - 4 → out[i]? = some 0xFF := by
  obtain ⟨hwritten, hpassed⟩ := checkFirmware_written hmin hmax
  obtain ⟨hflag, halgorithm⟩ := patchedBuffer_header hmax
  have hlen := image_length hmax
  have hlow : data.length ≤ finalSize data.length - 4 := by unfold finalSize; omega
  have hhigh : data.length + 4 ≤ finalSize data.length ∧
      finalSize data.length < data.length + 20 := by
    unfold finalSize replenishCnt
    split <;> omega
  have hsize : le32At (image data) 24 = le32At (patchedBuffer data) 24 :=
    le32At_congr (fun k hk => image_below (by omega))
  refine ⟨image data, hwritten, hpassed, ?_, ?_, ?_, ?_, ?_, ?_, ?_, ?_, ?_⟩
  · rw [hlen, hsize, patchedBuffer_size hmax]
  · rw [hlen, finalSize_mod]
  · rw [hlen]; exact hhigh.1
  · rw [hlen]; exact hhigh.2
  · rw [hlen]; exact image_checksum hmax
  · rw [image_below (by omega), hflag]; rfl
  · rw [image_below (by omega), halgorithm]; rfl
  · intro i hi h6 h7 hout
    rw [image_below (by omega), patchedBuffer_data hi h6 h7 hout]
  · intro i hlo hhi
    rw [hlen] at hhi
    rw [image_below hhi, patchedBuffer_padding hmin hmax hlo hhi]

/-- The smallest binary that is processed: 32 bytes become 36. -/
theorem checkFirmware_image_zeros :
    ∃ out, (checkFirmware (List.replicate 32 0)).written = some out ∧ out.length % 16 = 4 ∧
      out[6]? = some 0x5D := by
  obtain ⟨out, hwritten, -, -, hmod, -, -, -, hflag, -⟩ :=
    checkFirmware_image (List.replicate 32 0) (by decide) (by decide)
  exact ⟨out, hwritten, hmod, hflag⟩

end UniSdk.Scripts
