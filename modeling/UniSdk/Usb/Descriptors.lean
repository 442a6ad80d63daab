import UniSdk.Library.CharBuffers

/-!
# USB string descriptors

Both users of TinyUSB, the log backend and the MCUboot serial backend, answer the host's request
for a string with the same function over their own table. The length of the string goes through
one byte, and the first of the 32 halfwords is the header.
-/

namespace UniSdk.Usb

open Library.CharBuffers

/-- A string of the configuration, without its terminator. -/
structure AsciiString where
  chars : List Nat
  ascii : ∀ ch ∈ chars, 0 < ch ∧ ch < 128

/-- `CONFIG_TLK_USB_DEVICE_MANUFACTURER`, `..._PRODUCT_NAME`, `..._SERIAL_NUMBER` and
`..._INTERFACE_NAME`. -/
structure UsbStrings where
  manufacturer : AsciiString
  productName : AsciiString
  serialNumber : AsciiString
  interfaceName : AsciiString

/-- `string_desc_arr`: the language, then the strings. -/
def stringDescArr (strings : UsbStrings) : List (List Nat) :=
  [[0x09, 0x04], strings.manufacturer.chars, strings.productName.chars, strings.serialNumber.chars,
    strings.interfaceName.chars]

/-- `tlk_string_desc_arr` -/
def tlkStringDescArr (strings : UsbStrings) : List (List Nat) :=
  [[0x09, 0x04], strings.manufacturer.chars, strings.productName.chars, strings.serialNumber.chars,
    strings.interfaceName.chars]

variable (tusbDescString : UInt8)

/-- The header: the number of bytes, and the descriptor type above it. -/
def descriptorHeader (chrCount : Nat) : Nat :=
  ((tusbDescString.toNat <<< 8) ||| (2 * chrCount + 2)) % 2 ^ 16

/-- The body of both functions: the array as it is left, and whether its address is returned. -/
def descriptorString (arr : List (List Nat)) (descStr : CharBuf 32) (index : Nat) :
    CharBuf 32 × Bool :=
  if index = 0 then
    let language := arr.getD 0 []
    -- `memcpy` of two bytes to one halfword
    let descStr := descStr.store 1 (language.getD 0 0 + language.getD 1 0 * 256)
    (descStr.store 0 (descriptorHeader tusbDescString 1), true)
  else
    match arr[index]? with
    | none => (descStr, false)
    | some str =>
      let chrCount := str.length % 256
      if 32 < chrCount then (descStr, false)
      else
        let descStr := descStr.storeAll 1 ((str.take chrCount).map (· % 2 ^ 16))
        (descStr.store 0 (descriptorHeader tusbDescString chrCount), true)

/-- `tud_descriptor_string_cb` of `tlk_log_usb.c`. -/
def logDescriptorStringCb (strings : UsbStrings) (descStr : CharBuf 32) (index : Nat) :
    CharBuf 32 × Bool :=
  descriptorString tusbDescString (stringDescArr strings) descStr index

/-- `tud_descriptor_string_cb` of `usb_boot_serial.c`. -/
def bootDescriptorStringCb (strings : UsbStrings) (descStr : CharBuf 32) (index : Nat) :
    CharBuf 32 × Bool :=
  descriptorString tusbDescString (tlkStringDescArr strings) descStr index

/-- Every store was inside the array, and what is returned, if anything is, describes the whole
string. -/
def WellFormed (str : Option (List Nat)) (reply : CharBuf 32 × Bool) : Prop :=
  reply.1.inside = true ∧ (reply.2 = true → ∃ s header, str = some s ∧
    reply.1.contents.take (1 + s.length) = header :: s ∧ header % 256 = 2 + 2 * s.length ∧
    header / 256 = tusbDescString.toNat)

/-- A string that leaves room for the header, or whose truncated length is refused. -/
def Fits (s : List Nat) : Prop := s.length ≤ 31 ∨ 32 < s.length % 256

variable {tusbDescString}

theorem descriptorHeader_eq {chrCount : Nat} (h : chrCount ≤ 32) :
    descriptorHeader tusbDescString chrCount =
      tusbDescString.toNat * 256 + (2 * chrCount + 2) := by
  have htype := tusbDescString.toNat_lt
  rw [descriptorHeader, ← Nat.shiftLeft_add_eq_or_of_lt (show 2 * chrCount + 2 < 2 ^ 8 by omega),
    Nat.shiftLeft_eq]
  omega

/-- The header in front of the characters. -/
theorem contents_descriptor (b : CharBuf 32) {vs : List Nat} (h : vs.length ≤ 31) (header : Nat) :
    ((b.storeAll 1 vs).store 0 header).contents =
      header :: (vs ++ b.contents.drop (1 + vs.length)) := by
  have hroom : 1 + vs.length ≤ 32 := by omega
  have hall := @CharBuf.storeAll_contents 32 vs b 1 hroom
  have hset := CharBuf.store_contents (b.storeAll 1 vs) (show 0 < 32 by decide) header
  obtain ⟨x, hx⟩ : ∃ x, b.contents.take 1 = [x] := by
    apply List.length_eq_one_iff.mp
    rw [List.length_take, CharBuf.length_contents]
    decide
  rw [hx, Nat.cast_one] at hall
  rw [hall, Nat.cast_zero] at hset
  exact hset

/-- Halfwords hold ASCII characters as they are. -/
theorem map_halfword {s : List Nat} (hs : ∀ ch ∈ s, 0 < ch ∧ ch < 128) :
    s.map (· % 2 ^ 16) = s := by
  calc s.map (· % 2 ^ 16) = s.map id :=
        List.map_congr_left fun ch hch => Nat.mod_eq_of_lt (by have := hs ch hch; omega)
    _ = s := List.map_id s

theorem descriptorString_of_none {arr : List (List Nat)} {index : Nat} (hindex : index ≠ 0)
    (h : arr[index]? = none) (b : CharBuf 32) :
    descriptorString tusbDescString arr b index = (b, false) := by
  rw [descriptorString, if_neg hindex, h]

theorem descriptorString_of_some {arr : List (List Nat)} {index : Nat} (hindex : index ≠ 0)
    {str : List Nat} (h : arr[index]? = some str) (b : CharBuf 32) :
    descriptorString tusbDescString arr b index =
      if 32 < str.length % 256 then (b, false)
      else ((b.storeAll 1 ((str.take (str.length % 256)).map (· % 2 ^ 16))).store 0
        (descriptorHeader tusbDescString (str.length % 256)), true) := by
  rw [descriptorString, if_neg hindex, h]

/-- Halfword `i + 1` is stored for character `i`, so 32 characters do not fit behind the header. -/
theorem fits_of_wellFormed {str : List Nat} (hcount : str.length % 256 ≤ 32) {b : CharBuf 32}
    (h : WellFormed tusbDescString (some str)
      ((b.storeAll 1 (str.take (str.length % 256))).store 0
        (descriptorHeader tusbDescString (str.length % 256)), true)) : Fits str := by
  have hlength : (str.take (str.length % 256)).length = str.length % 256 := by
    rw [List.length_take]
    omega
  obtain ⟨hinside, hreply⟩ := h
  have hroom : str.length % 256 ≤ 31 := by
    by_contra hfull
    have hne : str.take (str.length % 256) ≠ [] := by
      apply List.ne_nil_of_length_pos
      omega
    have hstores := (CharBuf.store_inside_iff _ _ _).mp hinside
    have hend := ((CharBuf.storeAll_inside_iff hne b 1).mp hstores.1).2.2
    omega
  obtain ⟨s, header, hs, hcontents, hsize, -⟩ := hreply rfl
  obtain rfl := Option.some.inj hs
  rw [contents_descriptor b (by omega), Nat.add_comm, List.take_succ_cons] at hcontents
  have hheader := (List.cons.inj hcontents).1
  rw [← hheader, descriptorHeader_eq hcount] at hsize
  exact Or.inl (by omega)

theorem wellFormed_of_length_le {str : List Nat} (hshort : str.length ≤ 31) {b : CharBuf 32}
    (hb : b.inside = true) :
    WellFormed tusbDescString (some str)
      ((b.storeAll 1 str).store 0 (descriptorHeader tusbDescString str.length), true) := by
  have hroom : 1 + str.length ≤ 32 := by omega
  refine ⟨?_, fun _ => ⟨str, descriptorHeader tusbDescString str.length, rfl, ?_, ?_, ?_⟩⟩
  · exact (CharBuf.store_inside_iff _ _ _).mpr
      ⟨@CharBuf.storeAll_inside 32 str b hb 1 hroom, by omega, by omega⟩
  · rw [contents_descriptor b hshort, Nat.add_comm, List.take_succ_cons, List.take_left]
  · rw [descriptorHeader_eq (by omega)]
    omega
  · rw [descriptorHeader_eq (by omega)]
    omega

/-- A request that is not refused. -/
theorem descriptor_wellFormed_iff {str : List Nat} (hascii : ∀ ch ∈ str, 0 < ch ∧ ch < 128)
    (hcount : str.length % 256 ≤ 32) {b : CharBuf 32} (hb : b.inside = true) :
    WellFormed tusbDescString (some str)
      ((b.storeAll 1 ((str.take (str.length % 256)).map (· % 2 ^ 16))).store 0
        (descriptorHeader tusbDescString (str.length % 256)), true) ↔ Fits str := by
  have hchars : ∀ ch ∈ str.take (str.length % 256), 0 < ch ∧ ch < 128 := fun ch hch =>
    hascii ch (List.mem_of_mem_take hch)
  rw [map_halfword hchars]
  constructor
  · exact fits_of_wellFormed hcount
  · intro h
    have hshort : str.length ≤ 31 := by
      rcases h with hshort | hlong
      · exact hshort
      · omega
    have hwhole : str.length % 256 = str.length := Nat.mod_eq_of_lt (by omega)
    rw [hwhole, List.take_length]
    exact wellFormed_of_length_le hshort hb

/-- One request, for a table whose entry holds ASCII characters. -/
theorem descriptorString_wellFormed {arr : List (List Nat)} {index : Nat} (hindex : index ≠ 0)
    (hascii : ∀ s, arr[index]? = some s → ∀ ch ∈ s, 0 < ch ∧ ch < 128) {b : CharBuf 32}
    (hb : b.inside = true) :
    WellFormed tusbDescString arr[index]? (descriptorString tusbDescString arr b index) ↔
      ∀ s, arr[index]? = some s → Fits s := by
  cases hstr : arr[index]? with
  | none =>
    rw [descriptorString_of_none hindex hstr]
    refine iff_of_true ⟨hb, fun h => absurd h Bool.false_ne_true⟩ ?_
    intro s hs
    cases hs
  | some str =>
    rw [descriptorString_of_some hindex hstr]
    by_cases hlong : 32 < str.length % 256
    · rw [if_pos hlong]
      refine iff_of_true ⟨hb, fun h => absurd h Bool.false_ne_true⟩ ?_
      intro s hs
      rw [← Option.some.inj hs]
      exact Or.inr hlong
    · rw [if_neg hlong]
      have hsome : (∀ s, some str = some s → Fits s) ↔ Fits str :=
        ⟨fun h => h str rfl, fun h s hs => Option.some.inj hs ▸ h⟩
      rw [hsome]
      exact descriptor_wellFormed_iff (hascii str hstr) (Nat.le_of_not_lt hlong) hb

theorem stringDescArr_ascii (strings : UsbStrings) {index : Nat} (hindex : index ≠ 0)
    {s : List Nat} (h : (stringDescArr strings)[index]? = some s) :
    ∀ ch ∈ s, 0 < ch ∧ ch < 128 := by
  match index, h with
  | 0, _ => exact absurd rfl hindex
  | 1, h => exact Option.some.inj h ▸ strings.manufacturer.ascii
  | 2, h => exact Option.some.inj h ▸ strings.productName.ascii
  | 3, h => exact Option.some.inj h ▸ strings.serialNumber.ascii
  | 4, h => exact Option.some.inj h ▸ strings.interfaceName.ascii

/-- Both backends answer a request well exactly when the string asked for leaves room for the
header, or its length modulo 256 is more than the array holds. -/
theorem descriptorStringCb_wellFormed (tusbDescString : UInt8) (strings : UsbStrings)
    (descStr : CharBuf 32) (index : Nat) (hindex : 1 ≤ index) (hinside : descStr.inside = true) :
    (WellFormed tusbDescString (stringDescArr strings)[index]?
        (logDescriptorStringCb tusbDescString strings descStr index) ↔
      ∀ s, (stringDescArr strings)[index]? = some s → Fits s) ∧
    (WellFormed tusbDescString (tlkStringDescArr strings)[index]?
        (bootDescriptorStringCb tusbDescString strings descStr index) ↔
      ∀ s, (tlkStringDescArr strings)[index]? = some s → Fits s) := by
  have hne : index ≠ 0 := Nat.one_le_iff_ne_zero.mp hindex
  have h := @descriptorString_wellFormed tusbDescString (stringDescArr strings) index hne
    (fun _ hs => stringDescArr_ascii strings hne hs) descStr hinside
  exact ⟨h, h⟩

/-- A string of `n` times the letter A. -/
def repeated (n : Nat) : AsciiString where
  chars := List.replicate n 65
  ascii := by
    intro ch hch
    rw [List.eq_of_mem_replicate hch]
    decide

def exampleStrings : UsbStrings := ⟨repeated 31, repeated 32, repeated 33, repeated 256⟩

/-- The longest string that is returned. -/
theorem descriptorStringCb_wellFormed_example :
    (WellFormed 3 (stringDescArr exampleStrings)[1]?
        (logDescriptorStringCb 3 exampleStrings (CharBuf.zeros 32) 1) ↔
      ∀ s, (stringDescArr exampleStrings)[1]? = some s → Fits s) ∧
    (WellFormed 3 (tlkStringDescArr exampleStrings)[1]?
        (bootDescriptorStringCb 3 exampleStrings (CharBuf.zeros 32) 1) ↔
      ∀ s, (tlkStringDescArr exampleStrings)[1]? = some s → Fits s) :=
  descriptorStringCb_wellFormed 3 exampleStrings (CharBuf.zeros 32) 1 (by decide) rfl

/-- One character more is written behind the array; 256 characters are taken for none. -/
theorem descriptorStringCb_overrun :
    (logDescriptorStringCb 3 exampleStrings (CharBuf.zeros 32) 2).1.inside = false ∧
      (bootDescriptorStringCb 3 exampleStrings (CharBuf.zeros 32) 2).1.inside = false ∧
      (logDescriptorStringCb 3 exampleStrings (CharBuf.zeros 32) 4).2 = true ∧
      (logDescriptorStringCb 3 exampleStrings (CharBuf.zeros 32) 4).1.contents.take 1 =
        [3 * 256 + 2] ∧
      ¬ WellFormed 3 (stringDescArr exampleStrings)[2]?
        (logDescriptorStringCb 3 exampleStrings (CharBuf.zeros 32) 2) ∧
      ¬ WellFormed 3 (tlkStringDescArr exampleStrings)[2]?
        (bootDescriptorStringCb 3 exampleStrings (CharBuf.zeros 32) 2) := by
  have hlog : (logDescriptorStringCb 3 exampleStrings (CharBuf.zeros 32) 2).1.inside = false := by
    decide +kernel
  have hboot : (bootDescriptorStringCb 3 exampleStrings (CharBuf.zeros 32) 2).1.inside = false :=
    hlog
  refine ⟨hlog, hboot, by decide +kernel, by decide +kernel, ?_, ?_⟩
  · intro h
    exact Bool.false_ne_true (hlog.symm.trans h.1)
  · intro h
    exact Bool.false_ne_true (hboot.symm.trans h.1)

end UniSdk.Usb
