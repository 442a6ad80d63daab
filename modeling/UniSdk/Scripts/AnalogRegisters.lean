import UniSdk.Library.Dict
import UniSdk.Scripts.RegisterWalk

/-!
# The header of the analog registers

`process_device_areg` of `registers_gen.py` emits a macro for the address of every analog register.
A register with bit-fields gets a union and a macro with its size as well, whose names are made from
the text of the address; the macros of `tlk_analog.h` put these names together again from the
register's own. The emitted declarations are kept without comments and indentation.
-/

namespace UniSdk.Scripts.AnalogRegisters

open Library Library.Spans Registers
open Library.Text (startsWith)

section Model

variable {Scalar : Type*} (py : Python Scalar)

/-- The ways not to return. The first two are errors of this function only. -/
inductive AregExit
  | needsCount (name : String)
  | noOwnOffset (name : String)
  | other (exit : Exit)
  deriving DecidableEq

/-- A register, as it was read. -/
structure Areg where
  name : String
  offset : Int
  len : Int
  count : Int
  bits : Option (List (String × Int))
  deriving DecidableEq

/-- `count`. What is under `_repeated` has to be a mapping. -/
def aregCount (name : String) (val : Mapping Scalar) : Except AregExit Int :=
  match val.find "_repeated" with
  | none => .ok 1
  | some (.inl _) => .error (.other .exception)
  | some (.inr repeated) => match repeated.find "count" with
    | some (.inl s) => match py.asInt s with
      | some count => .ok count
      | none => .error (.needsCount name)
    | _ => .error (.needsCount name)

/-- The bit-fields with their widths, where there are any. -/
def aregBits (val : Mapping Scalar) : Except Exit (Option (List (String × Int))) :=
  match val.find "bfld" with
  | none => .ok none
  | some (.inl _) => .error .exception
  | some (.inr bfld) => do
    let bits ← bfld.items.mapM fun entry => do
      let bitWidth ← getBfldWidth py entry.1 entry.2
      return (entry.1, bitWidth)
    return some bits

/-- `bit_sum`. -/
def widthSum (bits : List (String × Int)) : Int := (bits.map Prod.snd).sum

/-- One register, behind `pointer`, up to what is emitted for it. -/
def readAreg (name : String) (val : Mapping Scalar) (pointer : Int) : Except AregExit Areg := do
  let count ← aregCount py name val
  let nodeStart ← (getNodeOffset py name val).mapError .other
  if nodeStart < pointer then .error (.other (.overlap name nodeStart pointer))
  else match val.find "offset", val.find "len" with
    | none, _ => .error (.noOwnOffset name)
    | some _, none => .error (.other (.noLen name))
    | some _, some len => do
      let regLen ← (intOf py len).mapError .other
      if regLen ∉ [1, 2, 4] then .error (.other (.invalidLen regLen name))
      else
        let bits ← (aregBits py val).mapError .other
        match bits with
        | none => return ⟨name, nodeStart, regLen, count, none⟩
        | some bits =>
          if widthSum bits ≠ regLen * 8 then
            .error (.other (.bitSum (widthSum bits) (regLen * 8) name))
          else return ⟨name, nodeStart, regLen, count, some bits⟩

/-- `{n:02x}` -/
def hexText : Int → List Char
  | .ofNat n => (Nat.toDigits 16 n).leftpad 2 '0'
  | .negSucc n => '-' :: Nat.toDigits 16 (n + 1)

/-- `reg_addr`. -/
def regAddr (n : Int) : List Char := '0' :: 'x' :: hexText n

/-- `TLK_AREG_{reg_addr}_SIZE` -/
def sizeName (addr : List Char) : List Char := "TLK_AREG_".toList ++ addr ++ "_SIZE".toList

/-- `tlk_areg_{reg_addr}` -/
def typeName (addr : List Char) : List Char := "tlk_areg_".toList ++ addr

/-- A declaration of the header. -/
inductive AregItem
  /-- `#define {name} {value}` -/
  | define (name value : List Char)
  /-- `#define {name}(offset) ({name}0 + offset * {len})` -/
  | indexed (name : List Char) (len : Int)
  /-- `typedef union tlk_areg_{name} { struct { .. } bit; {type} raw; } {type};` -/
  | union (name : String) (bits : List (String × Int)) (len : Int) (type : List Char)
  deriving DecidableEq

/-- `TLK_AREG_{name.upper()}` -/
def Areg.defineName (reg : Areg) : List Char := "TLK_AREG_".toList ++ (py.upper reg.name).toList

/-- The name for element `i` of a register without bit-fields. -/
def Areg.elementName (reg : Areg) (i : Nat) : List Char :=
  if reg.count = 1 then reg.defineName py else reg.defineName py ++ (toString i).toList

/-- What is emitted for a register. Where it has bit-fields its count does not matter. -/
def Areg.items (reg : Areg) : List AregItem :=
  match reg.bits with
  | some bits =>
    [.define (reg.defineName py) (regAddr reg.offset),
      .define (sizeName (regAddr reg.offset)) (toString (reg.len * 8)).toList,
      .union reg.name bits reg.len (typeName (regAddr reg.offset))]
  | none =>
    (if reg.count = 1 then [] else [.indexed (reg.defineName py) reg.len]) ++
      (List.range reg.count.toNat).map fun i : Nat =>
        .define (reg.elementName py i) (regAddr (reg.offset + i * reg.len))

/-- `process_device_areg`, from `pointer` on. -/
def processDeviceAreg : Mapping Scalar → Int → Except AregExit (List AregItem)
  | .nil, _ => .ok []
  | .scalar _ _ rest, pointer => processDeviceAreg rest pointer
  | .mapping name val rest, pointer =>
    if startsWith name "_" then processDeviceAreg rest pointer
    else do
      let reg ← readAreg py name val pointer
      let others ← processDeviceAreg rest (reg.offset + reg.len * reg.count)
      return reg.items py ++ others

/-! ### The header in use -/

/-- The macros without arguments, with their values, which are numbers. -/
def defines (items : List AregItem) : List (List Char × List Char) :=
  items.filterMap fun item => match item with
    | .define name value => some (name, value)
    | _ => none

/-- The unions by the names of their types: their bit-fields, and the bytes of the whole. -/
def unions (items : List AregItem) : List (List Char × List (String × Int) × Int) :=
  items.filterMap fun item => match item with
    | .union _ bits len type => some (type, bits, len)
    | _ => none

/-- What a word is replaced by. -/
def expand (macros : List (List Char × List Char)) (word : List Char) : List Char :=
  (Dict.lookup word macros).getD word

/-- A call of the analog driver: the function, the address and the type of the value. -/
structure AnalogCall where
  function : List Char
  addr : List Char
  type : List Char
  deriving DecidableEq

/-- `TLK_AREG_SIZE(reg)` of an argument that has been replaced. -/
def tlkAregSize (macros : List (List Char × List Char)) (reg : List Char) : List Char :=
  expand macros (sizeName reg)

/-- `TLK_ANALOG_READ(reg)` -/
def tlkAnalogRead (macros : List (List Char × List Char)) (reg : List Char) : AnalogCall :=
  let reg := expand macros reg
  ⟨"tlk_analog_read_reg".toList ++ tlkAregSize macros reg, reg, typeName reg⟩

/-- `TLK_ANALOG_WRITE(reg, var)` -/
def tlkAnalogWrite (macros : List (List Char × List Char)) (reg : List Char) : AnalogCall :=
  let reg := expand macros reg
  ⟨"tlk_analog_write_reg".toList ++ tlkAregSize macros reg, reg, typeName reg⟩

end Model

/-! ### What the YAML says -/

section Description

variable {Scalar : Type*} (py : Python Scalar)

/-- A register that says itself where it lies. -/
def describeAreg (name : String) (val : Mapping Scalar) : Option Areg :=
  match val.find "offset", val.find "len" with
  | some _, some len => do
    let count ← (aregCount py name val).toOption
    let offset ← (getNodeOffset py name val).toOption
    let regLen ← (intOf py len).toOption
    let bits ← (aregBits py val).toOption
    return ⟨name, offset, regLen, count, bits⟩
  | _, _ => none

/-- The registers in file order. -/
def describeAregs : Mapping Scalar → Option (List Areg)
  | .nil => some []
  | .scalar _ _ rest => describeAregs rest
  | .mapping name val rest =>
    if startsWith name "_" then describeAregs rest
    else do
      let reg ← describeAreg py name val
      let others ← describeAregs rest
      return reg :: others

/-- The bytes of a register with all its elements. -/
def Areg.size (reg : Areg) : Int := reg.len * reg.count

def Areg.cells (reg : Areg) : List Cell := elements reg.name reg.offset reg.len [reg.count]

/-- The length is that of an integer, and the bit-fields fill it. -/
structure Areg.Sound (reg : Areg) : Prop where
  len : reg.len ∈ [1, 2, 4]
  bits : ∀ bits, reg.bits = some bits → widthSum bits = reg.len * 8

/-- Every register begins behind the one before. -/
def InOrder (pointer : Int) : List Areg → Prop
  | [] => True
  | reg :: rest => pointer ≤ reg.offset ∧ InOrder (reg.offset + reg.size) rest

/-- A program that uses the header accesses what the YAML describes: a register with bit-fields
at its offset, with a function of its length and as the union of its bit-fields, and every element of
another register at its own offset. -/
structure Faithful (items : List AregItem) (regs : List Areg) : Prop where
  read : ∀ reg ∈ regs, reg.bits.isSome →
    tlkAnalogRead (defines items) (reg.defineName py) =
      ⟨"tlk_analog_read_reg".toList ++ (toString (reg.len * 8)).toList, regAddr reg.offset,
        typeName (regAddr reg.offset)⟩
  write : ∀ reg ∈ regs, reg.bits.isSome →
    tlkAnalogWrite (defines items) (reg.defineName py) =
      ⟨"tlk_analog_write_reg".toList ++ (toString (reg.len * 8)).toList, regAddr reg.offset,
        typeName (regAddr reg.offset)⟩
  type : ∀ reg ∈ regs, ∀ bits, reg.bits = some bits →
    Dict.lookup (typeName (regAddr reg.offset)) (unions items) = some (bits, reg.len)
  element : ∀ reg ∈ regs, reg.bits = none → ∀ i < reg.count.toNat,
    expand (defines items) (reg.elementName py i) = regAddr (reg.offset + i * reg.len)

end Description

/-! ### What is accepted -/

section Accepted

variable {Scalar : Type*} {py : Python Scalar} {pointer : Int}

theorem bind_ok_iff {ε α β : Type} {x : Except ε α} {f : α → Except ε β} {b : β} :
    x >>= f = .ok b ↔ ∃ a, x = .ok a ∧ f a = .ok b := by
  refine ⟨bind_ok, fun h => ?_⟩
  obtain ⟨a, rfl, hb⟩ := h
  exact hb

theorem mapError_ok_iff {ε ε' α : Type} {f : ε → ε'} {x : Except ε α} {a : α} :
    x.mapError f = .ok a ↔ x = .ok a := by
  cases x <;> simp [Except.mapError]

theorem toOption_eq_some_iff {ε α : Type} {x : Except ε α} {a : α} :
    x.toOption = some a ↔ x = .ok a := by
  cases x <;> simp [Except.toOption]

theorem describeAreg_iff {name : String} {val : Mapping Scalar} {reg : Areg} :
    describeAreg py name val = some reg ↔
      ∃ offset len, val.find "offset" = some offset ∧ val.find "len" = some len ∧
        aregCount py name val = .ok reg.count ∧ getNodeOffset py name val = .ok reg.offset ∧
        intOf py len = .ok reg.len ∧ aregBits py val = .ok reg.bits ∧ reg.name = name := by
  constructor
  · intro h
    rw [describeAreg] at h
    split at h
    · next offset len hoffset hlen =>
      obtain ⟨count, hcount, h⟩ := Option.bind_eq_some_iff.mp h
      obtain ⟨nodeStart, hstart, h⟩ := Option.bind_eq_some_iff.mp h
      obtain ⟨regLen, hregLen, h⟩ := Option.bind_eq_some_iff.mp h
      obtain ⟨bits, hbits, h⟩ := Option.bind_eq_some_iff.mp h
      obtain rfl := Option.some.inj h
      rw [toOption_eq_some_iff] at hcount hstart hregLen hbits
      exact ⟨offset, len, hoffset, hlen, hcount, hstart, hregLen, hbits, rfl⟩
    · cases h
  · intro h
    obtain ⟨offset, len, hoffset, hlen, hcount, hstart, hregLen, hbits, rfl⟩ := h
    rw [describeAreg, hoffset, hlen]
    simp only [hcount, hstart, hregLen, hbits, Except.toOption]
    rfl

theorem readAreg_iff {name : String} {val : Mapping Scalar} {reg : Areg} :
    readAreg py name val pointer = .ok reg ↔
      describeAreg py name val = some reg ∧ pointer ≤ reg.offset ∧ reg.Sound := by
  rw [describeAreg_iff]
  constructor
  · intro h
    obtain ⟨count, hcount, h⟩ := bind_ok h
    obtain ⟨nodeStart, hstart, h⟩ := bind_ok h
    rw [mapError_ok_iff] at hstart
    split_ifs at h with hoverlap
    split at h
    · cases h
    · cases h
    · next offset len hoffset hlen =>
      obtain ⟨regLen, hregLen, h⟩ := bind_ok h
      rw [mapError_ok_iff] at hregLen
      split_ifs at h with hvalid
      obtain ⟨bits, hbits, h⟩ := bind_ok h
      rw [mapError_ok_iff] at hbits
      cases bits with
      | none =>
        cases h
        exact ⟨⟨offset, len, hoffset, hlen, hcount, hstart, hregLen, hbits, rfl⟩,
          not_lt.mp hoverlap, hvalid, nofun⟩
      | some bits =>
        dsimp only at h
        split_ifs at h with hsum
        cases h
        refine ⟨⟨offset, len, hoffset, hlen, hcount, hstart, hregLen, hbits, rfl⟩,
          not_lt.mp hoverlap, hvalid, fun _ heq => ?_⟩
        cases heq
        exact not_not.mp hsum
  · intro h
    obtain ⟨⟨offset, len, hoffset, hlen, hcount, hstart, hregLen, hbits, rfl⟩, hle, hsound⟩ := h
    refine bind_ok_iff.mpr ⟨_, hcount, bind_ok_iff.mpr ⟨_, mapError_ok_iff.mpr hstart, ?_⟩⟩
    rw [if_neg (not_lt.mpr hle), hoffset, hlen]
    refine bind_ok_iff.mpr ⟨_, mapError_ok_iff.mpr hregLen, ?_⟩
    rw [if_neg (not_not.mpr hsound.len)]
    refine bind_ok_iff.mpr ⟨_, mapError_ok_iff.mpr hbits, ?_⟩
    obtain ⟨name, offset, len, count, bits⟩ := reg
    cases bits with
    | none => rfl
    | some bits => exact if_neg (not_not.mpr (hsound.bits bits rfl))

/-- A row of sound registers is accepted, and nothing else; their items are emitted one after the
other. -/
theorem processDeviceAreg_iff {data : Mapping Scalar} {items : List AregItem} :
    processDeviceAreg py data pointer = .ok items ↔
      ∃ regs, describeAregs py data = some regs ∧ InOrder pointer regs ∧
        (∀ reg ∈ regs, reg.Sound) ∧ items = regs.flatMap (Areg.items py) := by
  induction data generalizing pointer items with
  | nil =>
    rw [processDeviceAreg, Except.ok.injEq]
    constructor
    · intro h
      exact ⟨[], rfl, trivial, List.forall_mem_nil _, h.symm⟩
    · intro h
      obtain ⟨regs, hregs, -, -, hitems⟩ := h
      obtain rfl := Option.some.inj hregs
      exact hitems.symm
  | scalar key value rest ih =>
    rw [processDeviceAreg]
    exact ih
  | mapping name val rest _ ih =>
    rw [processDeviceAreg, describeAregs]
    split_ifs with hname
    · exact ih
    · constructor
      · intro h
        obtain ⟨reg, hreg, h⟩ := bind_ok h
        obtain ⟨others, hothers, h⟩ := bind_ok h
        cases h
        obtain ⟨hdescribe, hle, hsound⟩ := readAreg_iff.mp hreg
        obtain ⟨regs, hregs, horder, hall, rfl⟩ := ih.mp hothers
        refine ⟨reg :: regs, ?_, ⟨hle, horder⟩, List.forall_mem_cons.mpr ⟨hsound, hall⟩, rfl⟩
        rw [hdescribe, hregs]
        rfl
      · intro h
        obtain ⟨regs, hregs, horder, hall, hitems⟩ := h
        obtain ⟨reg, hreg, hregs⟩ := Option.bind_eq_some_iff.mp hregs
        obtain ⟨others, hothers, hregs⟩ := Option.bind_eq_some_iff.mp hregs
        obtain rfl := Option.some.inj hregs
        obtain ⟨hsound, hrest⟩ := List.forall_mem_cons.mp hall
        have hrest := ih.mpr ⟨others, hothers, horder.2, hrest, rfl⟩
        rw [readAreg_iff.mpr ⟨hreg, horder.1, hsound⟩, hitems]
        show (processDeviceAreg py rest (reg.offset + reg.size) >>= _) = _
        rw [hrest]
        rfl

end Accepted

/-! ### Addresses as text -/

theorem digitChar_injective {a b : Nat} (ha : a < 16) (hb : b < 16)
    (h : Nat.digitChar a = Nat.digitChar b) : a = b := by
  have hall : ∀ a b : Fin 16, Nat.digitChar a = Nat.digitChar b → a = b := by decide
  exact congrArg Fin.val (hall ⟨a, ha⟩ ⟨b, hb⟩ h)

theorem toDigits_injective {m n : Nat} (h : Nat.toDigits 16 m = Nat.toDigits 16 n) : m = n := by
  induction m using Nat.strongRecOn generalizing n with
  | ind m ih =>
    have hstep : ∀ k, 16 ≤ k →
        Nat.toDigits 16 k = Nat.toDigits 16 (k / 16) ++ [Nat.digitChar (k % 16)] :=
      fun k hk => Nat.toDigits_of_base_le (by decide) hk
    have hmod : ∀ k, k % 16 < 16 := fun k => Nat.mod_lt k (by decide)
    -- a number below 16 has one digit, any other has more
    have hlong : ∀ k c, [c] ≠ Nat.toDigits 16 (k / 16) ++ [Nat.digitChar (k % 16)] := by
      intro k c heq
      have hlength := congrArg List.length heq
      have hpos := @Nat.length_toDigits_pos 16 (k / 16)
      rw [List.length_append, List.length_singleton, List.length_singleton] at hlength
      omega
    by_cases hm : m < 16 <;> by_cases hn : n < 16
    · rw [Nat.toDigits_of_lt_base hm, Nat.toDigits_of_lt_base hn] at h
      exact digitChar_injective hm hn (List.cons.inj h).1
    · rw [Nat.toDigits_of_lt_base hm, hstep n (not_lt.mp hn)] at h
      exact absurd h (hlong n _)
    · rw [Nat.toDigits_of_lt_base hn, hstep m (not_lt.mp hm)] at h
      exact absurd h.symm (hlong m _)
    · rw [hstep m (not_lt.mp hm), hstep n (not_lt.mp hn)] at h
      obtain ⟨hfront, hlast⟩ := List.append_inj' h rfl
      have hdiv := ih (m / 16) (Nat.div_lt_self (by omega) (by decide)) hfront
      have hrest := digitChar_injective (hmod m) (hmod n) (List.cons.inj hlast).1
      omega

/-- Two digits at least: the last one, and what stands before it. -/
theorem hexText_natCast (n : Nat) :
    hexText n = Nat.toDigits 16 (n / 16) ++ [Nat.digitChar (n % 16)] := by
  show (Nat.toDigits 16 n).leftpad 2 '0' = _
  by_cases hn : n < 16
  · rw [Nat.toDigits_of_lt_base hn, Nat.div_eq_of_lt hn, Nat.mod_eq_of_lt hn, Nat.toDigits_zero]
    rfl
  · rw [Nat.toDigits_of_base_le (by decide) (not_lt.mp hn), List.leftpad]
    have hpos := @Nat.length_toDigits_pos 16 (n / 16)
    have hlong : 2 - (Nat.toDigits 16 (n / 16) ++ [Nat.digitChar (n % 16)]).length = 0 := by
      rw [List.length_append, List.length_singleton]
      omega
    rw [hlong]
    rfl

theorem regAddr_injective {a b : Int} (ha : 0 ≤ a) (hb : 0 ≤ b) (h : regAddr a = regAddr b) :
    a = b := by
  obtain ⟨m, rfl⟩ := Int.eq_ofNat_of_zero_le ha
  obtain ⟨n, rfl⟩ := Int.eq_ofNat_of_zero_le hb
  have htext := (List.cons.inj (List.cons.inj h).2).2
  rw [hexText_natCast, hexText_natCast] at htext
  obtain ⟨hfront, hlast⟩ := List.append_inj' htext rfl
  have hdiv := toDigits_injective hfront
  have hmod := digitChar_injective (Nat.mod_lt m (by decide)) (Nat.mod_lt n (by decide))
    (List.cons.inj hlast).1
  omega

theorem sizeName_injective {a b : List Char} (h : sizeName a = sizeName b) : a = b :=
  List.append_cancel_left (List.append_cancel_right h)

theorem typeName_injective {a b : List Char} (h : typeName a = typeName b) : a = b :=
  List.append_cancel_left h

/-- The number of bits of a register is no address. -/
theorem sizeText_ne_regAddr {reg : Areg} (h : reg.Sound) (a : Int) :
    (toString (reg.len * 8)).toList ≠ regAddr a := by
  have hfirst : (toString (reg.len * 8)).toList.head? ≠ some '0' := by
    have hlen := h.len
    simp only [List.mem_cons, List.not_mem_nil, or_false] at hlen
    rcases hlen with heq | heq | heq <;> rw [heq] <;> decide
  intro heq
  rw [heq] at hfirst
  exact hfirst rfl

/-! ### The macros and the types of a row -/

section Row

variable {Scalar : Type*} {py : Python Scalar} {pointer : Int} {reg other : Areg} {regs : List Areg}

theorem defines_some {bits : List (String × Int)} (h : reg.bits = some bits) :
    defines (reg.items py) = [(reg.defineName py, regAddr reg.offset),
      (sizeName (regAddr reg.offset), (toString (reg.len * 8)).toList)] := by
  rw [Areg.items, h]
  rfl

theorem defines_none (h : reg.bits = none) :
    defines (reg.items py) = (List.range reg.count.toNat).map fun i : Nat =>
      (reg.elementName py i, regAddr (reg.offset + i * reg.len)) := by
  rw [Areg.items, h]
  by_cases hone : reg.count = 1 <;> simp [defines, hone, List.filterMap_map]

theorem Areg.Sound.len_pos (h : reg.Sound) : 0 < reg.len := by
  have hlen := h.len
  simp only [List.mem_cons, List.not_mem_nil, or_false] at hlen
  omega

/-- An element lies within its register. -/
theorem element_range (h : 0 < reg.len) {i : Nat} (hi : i < reg.count.toNat) :
    reg.offset ≤ reg.offset + i * reg.len ∧
      reg.offset + i * reg.len < reg.offset + reg.size := by
  have hle : ((i : Int) + 1) * reg.len ≤ reg.count * reg.len :=
    Int.mul_le_mul_of_nonneg_right (by omega) h.le
  have hpos := Int.mul_nonneg (Int.natCast_nonneg i) h.le
  rw [Int.add_mul, Int.one_mul] at hle
  rw [Areg.size, Int.mul_comm reg.len]
  omega

/-- A macro gives an address within the register, or its size. -/
theorem mem_defines (hsound : reg.Sound) (hcount : 1 ≤ reg.count)
    {define : List Char × List Char} (h : define ∈ defines (reg.items py)) :
    (∃ a, reg.offset ≤ a ∧ a < reg.offset + reg.size ∧ define.2 = regAddr a) ∨
      define = (sizeName (regAddr reg.offset), (toString (reg.len * 8)).toList) := by
  have hpos := hsound.len_pos
  cases hbits : reg.bits with
  | some bits =>
    rw [defines_some hbits, List.mem_cons, List.mem_singleton] at h
    rcases h with rfl | rfl
    · have hzero := element_range hpos (show 0 < reg.count.toNat by omega)
      rw [Nat.cast_zero, Int.zero_mul, Int.add_zero] at hzero
      exact .inl ⟨reg.offset, hzero.1, hzero.2, rfl⟩
    · exact .inr rfl
  | none =>
    rw [defines_none hbits] at h
    obtain ⟨i, hi, rfl⟩ := List.mem_map.mp h
    obtain ⟨hlo, hhi⟩ := element_range hpos (List.mem_range.mp hi)
    exact .inl ⟨_, hlo, hhi, rfl⟩

theorem nodup_defines (hsound : reg.Sound) (hzero : 0 ≤ reg.offset) :
    (defines (reg.items py)).Nodup := by
  have hpos := hsound.len_pos
  cases hbits : reg.bits with
  | some bits =>
    rw [defines_some hbits, List.nodup_cons, List.mem_singleton]
    exact ⟨fun heq => sizeText_ne_regAddr hsound _ (congrArg Prod.snd heq).symm,
      List.nodup_singleton _⟩
  | none =>
    rw [defines_none hbits]
    refine List.nodup_range.map fun i j heq => ?_
    have hi := Int.mul_nonneg (Int.natCast_nonneg i) hpos.le
    have hj := Int.mul_nonneg (Int.natCast_nonneg j) hpos.le
    have haddr := regAddr_injective (by omega) (by omega) (congrArg Prod.snd heq)
    exact Int.ofNat_inj.mp (Int.eq_of_mul_eq_mul_right hpos.ne' (by omega))

theorem size_pos (hsound : reg.Sound) (hcount : 1 ≤ reg.count) : 0 < reg.size :=
  Int.mul_pos hsound.len_pos (by omega)

/-- Registers that lie apart have no macro in common. -/
theorem disjoint_defines (hsound : reg.Sound) (hsound' : other.Sound) (hcount : 1 ≤ reg.count)
    (hcount' : 1 ≤ other.count) (hzero : 0 ≤ reg.offset) (hzero' : 0 ≤ other.offset)
    (h : Apart Areg.offset Areg.size reg other) :
    (defines (reg.items py)).Disjoint (defines (other.items py)) := by
  have hsize := size_pos hsound hcount
  have hsize' := size_pos hsound' hcount'
  intro define hdefine hdefine'
  rcases mem_defines hsound hcount hdefine with ⟨a, hlo, hhi, ha⟩ | hsizeDef <;>
    rcases mem_defines hsound' hcount' hdefine' with ⟨b, hlo', hhi', hb⟩ | hsizeDef'
  · obtain rfl := regAddr_injective (by omega) (by omega) (ha.symm.trans hb)
    rcases h with h | h <;> omega
  · rw [hsizeDef'] at ha
    exact sizeText_ne_regAddr hsound' a ha
  · rw [hsizeDef] at hb
    exact sizeText_ne_regAddr hsound b hb
  · have hname := congrArg Prod.fst (hsizeDef.symm.trans hsizeDef')
    have hoffset := regAddr_injective hzero hzero' (sizeName_injective hname)
    rcases h with h | h <;> omega

theorem InOrder.ordered (h : InOrder pointer regs) (hsound : ∀ reg ∈ regs, reg.Sound)
    (hcount : ∀ reg ∈ regs, 1 ≤ reg.count) :
    ∃ stop, Ordered Areg.offset Areg.size pointer stop regs ∧
      Ordered Cell.start Cell.size pointer stop (regs.flatMap Areg.cells) := by
  induction regs generalizing pointer with
  | nil => exact ⟨pointer, Int.le_refl _, Int.le_refl _⟩
  | cons reg regs ih =>
    obtain ⟨hreg, hregs⟩ := List.forall_mem_cons.mp hsound
    obtain ⟨hone, hothers⟩ := List.forall_mem_cons.mp hcount
    obtain ⟨stop, hrow, hcells⟩ := ih h.2 hregs hothers
    have hcell : Ordered Cell.start Cell.size reg.offset (reg.offset + reg.size) reg.cells := by
      have hrange := elements_ordered reg.name reg.offset hreg.len_pos.le
        (List.forall_mem_singleton.mpr (show 0 ≤ reg.count by omega))
      rwa [show totalElements [reg.count] = reg.count from Int.one_mul _] at hrange
    exact ⟨stop, ⟨h.1, (size_pos hreg hone).le, hrow⟩, (hcell.weaken h.1).append hcells⟩

theorem defines_items (regs : List Areg) :
    defines (regs.flatMap (Areg.items py)) = regs.flatMap fun reg => defines (reg.items py) :=
  List.filterMap_flatMap

theorem unions_items (regs : List Areg) :
    unions (regs.flatMap (Areg.items py)) = regs.filterMap fun reg =>
      reg.bits.map fun bits => (typeName (regAddr reg.offset), bits, reg.len) := by
  rw [unions, List.filterMap_flatMap, List.filterMap_eq_flatMap_toList]
  congr 1
  funext reg
  cases hbits : reg.bits with
  | some bits =>
    rw [Areg.items, hbits]
    rfl
  | none =>
    rw [Areg.items, hbits]
    by_cases hone : reg.count = 1 <;> simp [hone, List.filterMap_map]

/-- The macros of a row are different, as pairs of a name and a value. -/
theorem nodup_defines_items (hsound : ∀ reg ∈ regs, reg.Sound) (hcount : ∀ reg ∈ regs, 1 ≤ reg.count)
    (hzero : ∀ reg ∈ regs, 0 ≤ reg.offset) (hapart : regs.Pairwise (Apart Areg.offset Areg.size)) :
    (defines (regs.flatMap (Areg.items py))).Nodup := by
  rw [defines_items, List.nodup_flatMap]
  refine ⟨fun reg hreg => nodup_defines (hsound reg hreg) (hzero reg hreg), ?_⟩
  refine hapart.imp_of_mem fun {reg other} hreg hother h => ?_
  exact disjoint_defines (hsound reg hreg) (hsound other hother) (hcount reg hreg)
    (hcount other hother) (hzero reg hreg) (hzero other hother) h

theorem nodup_unions_items (hsound : ∀ reg ∈ regs, reg.Sound) (hcount : ∀ reg ∈ regs, 1 ≤ reg.count)
    (hzero : ∀ reg ∈ regs, 0 ≤ reg.offset) (hapart : regs.Pairwise (Apart Areg.offset Areg.size)) :
    ((unions (regs.flatMap (Areg.items py))).map Prod.fst).Nodup := by
  rw [unions_items, List.Nodup, List.pairwise_map, List.pairwise_filterMap]
  refine hapart.imp_of_mem fun {reg other} hreg hother h => ?_
  intro entry hentry entry' hentry' heq
  obtain ⟨bits, -, rfl⟩ := Option.map_eq_some_iff.mp hentry
  obtain ⟨bits', -, rfl⟩ := Option.map_eq_some_iff.mp hentry'
  have hoffset := regAddr_injective (hzero reg hreg) (hzero other hother) (typeName_injective heq)
  have hsize := size_pos (hsound reg hreg) (hcount reg hreg)
  have hsize' := size_pos (hsound other hother) (hcount other hother)
  rcases h with h | h <;> omega

theorem lookup_eq_expand {macros : List (List Char × List Char)} {define : List Char × List Char}
    (h : define ∈ macros) : Dict.lookup define.1 macros = some (expand macros define.1) := by
  have hfound : Dict.lookup define.1 macros ≠ none := by
    induction macros with
    | nil => cases h
    | cons entry macros ih =>
      rw [Dict.lookup]
      split
      · exact Option.some_ne_none _
      · next hne =>
        refine ih ((List.mem_cons.mp h).resolve_left fun heq => hne ?_)
        rw [heq]
  obtain ⟨value, hvalue⟩ := Option.ne_none_iff_exists'.mp hfound
  rw [expand, hvalue]
  rfl

theorem tlkAnalogRead_eq {macros : List (List Char × List Char)} {word addr size : List Char}
    (haddr : expand macros word = addr) (hsize : tlkAregSize macros addr = size) :
    tlkAnalogRead macros word = ⟨"tlk_analog_read_reg".toList ++ size, addr, typeName addr⟩ := by
  subst haddr hsize
  rfl

theorem tlkAnalogWrite_eq {macros : List (List Char × List Char)} {word addr size : List Char}
    (haddr : expand macros word = addr) (hsize : tlkAregSize macros addr = size) :
    tlkAnalogWrite macros word = ⟨"tlk_analog_write_reg".toList ++ size, addr, typeName addr⟩ := by
  subst haddr hsize
  rfl

/-- The header is faithful exactly when no macro is defined twice. -/
theorem faithful_iff (hsound : ∀ reg ∈ regs, reg.Sound) (hcount : ∀ reg ∈ regs, 1 ≤ reg.count)
    (hzero : ∀ reg ∈ regs, 0 ≤ reg.offset) (hapart : regs.Pairwise (Apart Areg.offset Areg.size)) :
    Faithful py (regs.flatMap (Areg.items py)) regs ↔
      ((defines (regs.flatMap (Areg.items py))).map Prod.fst).Nodup := by
  have hmem : ∀ reg ∈ regs, ∀ define ∈ defines (reg.items py),
      define ∈ defines (regs.flatMap (Areg.items py)) := by
    intro reg hreg define hdefine
    rw [defines_items]
    exact List.mem_flatMap.mpr ⟨reg, hreg, hdefine⟩
  rw [Dict.nodup_iff_lookup (nodup_defines_items hsound hcount hzero hapart)]
  constructor
  · intro h define hdefine
    rw [lookup_eq_expand hdefine]
    rw [defines_items] at hdefine
    obtain ⟨reg, hreg, hdefine⟩ := List.mem_flatMap.mp hdefine
    cases hbits : reg.bits with
    | some bits =>
      have hread := h.read reg hreg (by rw [hbits]; rfl)
      have haddr : expand (defines (regs.flatMap (Areg.items py))) (reg.defineName py) =
          regAddr reg.offset := congrArg AnalogCall.addr hread
      have hfunction := congrArg AnalogCall.function hread
      rw [defines_some hbits, List.mem_cons, List.mem_singleton] at hdefine
      rcases hdefine with rfl | rfl
      · exact congrArg some haddr
      · refine congrArg some ?_
        rw [← haddr]
        exact List.append_cancel_left hfunction
    | none =>
      rw [defines_none hbits] at hdefine
      obtain ⟨i, hi, rfl⟩ := List.mem_map.mp hdefine
      exact congrArg some (h.element reg hreg hbits i (List.mem_range.mp hi))
  · intro h
    have hexpand : ∀ reg ∈ regs, ∀ define ∈ defines (reg.items py),
        expand (defines (regs.flatMap (Areg.items py))) define.1 = define.2 := by
      intro reg hreg define hdefine
      rw [expand, h define (hmem reg hreg define hdefine)]
      rfl
    have hfields : ∀ reg ∈ regs, reg.bits.isSome →
        expand (defines (regs.flatMap (Areg.items py))) (reg.defineName py) =
            regAddr reg.offset ∧
          tlkAregSize (defines (regs.flatMap (Areg.items py))) (regAddr reg.offset) =
            (toString (reg.len * 8)).toList := by
      intro reg hreg hsome
      obtain ⟨bits, hbits⟩ := Option.isSome_iff_exists.mp hsome
      have hdefines := hexpand reg hreg
      rw [defines_some hbits] at hdefines
      exact ⟨hdefines _ List.mem_cons_self, hdefines _ (List.mem_cons_of_mem _ List.mem_cons_self)⟩
    refine ⟨fun reg hreg hsome => ?_, fun reg hreg hsome => ?_, fun reg hreg bits hbits => ?_,
      fun reg hreg hbits i hi => ?_⟩
    · obtain ⟨haddr, hsize⟩ := hfields reg hreg hsome
      exact tlkAnalogRead_eq haddr hsize
    · obtain ⟨haddr, hsize⟩ := hfields reg hreg hsome
      exact tlkAnalogWrite_eq haddr hsize
    · rw [← Dict.mem_iff_lookup (nodup_unions_items hsound hcount hzero hapart), unions_items]
      exact List.mem_filterMap.mpr ⟨reg, hreg, by rw [hbits]; rfl⟩
    · have hdefines := hexpand reg hreg
      rw [defines_none hbits] at hdefines
      exact hdefines _ (List.mem_map.mpr ⟨i, List.mem_range.mpr hi, rfl⟩)

end Row

/-- A power register with two fields, and a pair of buffers behind a gap. -/
def powerAregs : Mapping Int :=
  .mapping "power" (registerKeys 4 1 (.mapping "bfld"
      (.scalar "enable" 1 (.scalar "level" 7 .nil)) .nil))
    (.mapping "buffer" (.mapping "_repeated" (.scalar "count" 2 .nil) (registerKeys 8 2 .nil)) .nil)

end UniSdk.Scripts.AnalogRegisters
