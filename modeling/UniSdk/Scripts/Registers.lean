import UniSdk.Library.Text
import Mathlib

/-!
# The register structs of `registers_gen.py`

A device is a YAML mapping of registers, groups of registers and plain keys. `process_node` walks
it with a byte pointer and emits the members of a packed struct; a second walk emits the
constants of the bit-fields. The emitted declarations are kept as a tree, without their text,
indentation and comments. What Python makes of a scalar is a parameter.
-/

namespace UniSdk.Scripts.Registers

open UniSdk.Library.Text (startsWith)

/-- What the interpreter makes of a YAML value that is no mapping, and of a name. An exception is
`none`. -/
structure Python (Scalar : Type*) where
  /-- `int(x)` -/
  toInt : Scalar → Option Int
  /-- `int(str(x), 0)` -/
  toIntAuto : Scalar → Option Int
  /-- `isinstance(x, int)` -/
  asInt : Scalar → Option Int
  isNone : Scalar → Bool
  truthy : Scalar → Bool
  upper : String → String
  lower : String → String

/-- A YAML mapping: keys with scalars or with mappings, in file order. -/
inductive Mapping (Scalar : Type*)
  | nil
  | scalar (key : String) (value : Scalar) (rest : Mapping Scalar)
  | mapping (key : String) (value : Mapping Scalar) (rest : Mapping Scalar)

/-- The ways not to return: the errors that are logged before `sys.exit(1)`, and an exception. -/
inductive Exit
  | noWidth (bfld : String)
  | noWidthKey (bfld : String)
  | valueRange (value : String) (number width : Int) (bfld : String) (path : List String)
  | noOffset (name : String)
  | noCount
  | tooManyCounts
  | overlap (name : String) (offset current : Int)
  | noLen (name : String)
  | invalidLen (len : Int) (name : String)
  | bitSum (sum expected : Int) (name : String)
  | repeatedDevice (name : String)
  | exception
  deriving DecidableEq

section Model

variable {Scalar : Type*}

abbrev Value (Scalar : Type*) := Scalar ⊕ Mapping Scalar

/-- `data.get(key)`. -/
def Mapping.find (key : String) : Mapping Scalar → Option (Value Scalar)
  | .nil => none
  | .scalar k v rest => if k = key then some (.inl v) else rest.find key
  | .mapping k v rest => if k = key then some (.inr v) else rest.find key

/-- `data.items()`. -/
def Mapping.items : Mapping Scalar → List (String × Value Scalar)
  | .nil => []
  | .scalar k v rest => (k, .inl v) :: rest.items
  | .mapping k v rest => (k, .inr v) :: rest.items

variable (py : Python Scalar)

/-- `int(x)` of a value. -/
def intOf (value : Value Scalar) : Except Exit Int :=
  match value with
  | .inl s => match py.toInt s with
    | some n => .ok n
    | none => .error .exception
  | .inr _ => .error .exception

/-! ### Bit-fields -/

/-- `is_reserved_bfld`. -/
def isReservedBfld (name : String) : Bool := startsWith (py.lower name) "reserved"

/-- `get_bfld_width`. -/
def getBfldWidth (bName : String) (bDesc : Value Scalar) : Except Exit Int :=
  match bDesc with
  | .inl s => if py.isNone s then .error (.noWidth bName) else intOf py (.inl s)
  | .inr m => match ["width", "bits", "len"].findSome? m.find with
    | some width => intOf py width
    | none => .error (.noWidthKey bName)

/-- `get_bfld_named_values`. -/
def getBfldNamedValues (bDesc : Value Scalar) : List (String × Value Scalar) :=
  match bDesc with
  | .inl _ => []
  | .inr m => (["values", "enum", "mode", "modes"].findSome? (fun key => match m.find key with
    | some (.inr values) => some values.items
    | _ => none)).getD []

/-- `value_prefix`. -/
def valueLead (device : String) (path : List String) : String :=
  "TLK_" ++ py.upper device ++ "_" ++ String.intercalate "_" (path.map py.upper)

/-- `tag_prefix`. -/
def tagLead (device : String) (path : List String) : String :=
  "tlk_" ++ py.lower device ++ "_" ++ String.intercalate "_" (path.map py.lower)

/-- The loop of `get_flag_enum_bfld_values` from `bit_offset` on. -/
def flagValues (lead : String) (bitOffset : Int) :
    List (String × Value Scalar) → Except Exit (List (String × Int))
  | [] => .ok []
  | (bName, bDesc) :: rest => do
    let bitWidth ← getBfldWidth py bName bDesc
    let values ← flagValues lead (bitOffset + bitWidth) rest
    return if bitWidth = 1 ∧ isReservedBfld py bName = false then
      (lead ++ "_" ++ py.upper bName, bitOffset) :: values
    else values

/-- `get_flag_enum_bfld_values`. -/
def getFlagEnumBfldValues (device : String) (path : List String) (bfld : Mapping Scalar) :
    Except Exit (List (String × Int)) :=
  flagValues py (valueLead py device path) 0 bfld.items

/-- The field has an enum of its own. -/
def isWide (bName : String) (bDesc : Value Scalar) (bitWidth : Int) : Bool :=
  !(bitWidth ≤ 1 || isReservedBfld py bName || (getBfldNamedValues bDesc).isEmpty)

/-- `get_wide_bfld_enum_tag`. -/
def getWideBfldEnumTag (device : String) (path : List String) (bName : String)
    (bDesc : Value Scalar) : Except Exit (Option String) := do
  let bitWidth ← getBfldWidth py bName bDesc
  return if isWide py bName bDesc bitWidth then
    some (tagLead py device path ++ "_" ++ py.lower bName ++ "_e")
  else none

/-- The enum of a field: its tag, its constants and their values. -/
structure WideEnum where
  bName : String
  tag : String
  values : List (String × Int)
  deriving DecidableEq

/-- One field in `get_wide_bfld_enums`. -/
def getWideBfldEnum (device : String) (path : List String) (bName : String)
    (bDesc : Value Scalar) : Except Exit (Option WideEnum) := do
  let bitWidth ← getBfldWidth py bName bDesc
  if isWide py bName bDesc bitWidth then
    let maxValue : Int := 2 ^ bitWidth.toNat - 1
    let values ← (getBfldNamedValues bDesc).mapM (fun entry => do
      let number ← intOf py entry.2
      if number < 0 ∨ maxValue < number then
        .error (.valueRange entry.1 number bitWidth bName path)
      else
        .ok (valueLead py device path ++ "_" ++ py.upper bName ++ "_" ++ py.upper entry.1, number))
    return some ⟨bName, tagLead py device path ++ "_" ++ py.lower bName ++ "_e", values⟩
  else return none

/-- `get_wide_bfld_enums`. -/
def getWideBfldEnums (device : String) (path : List String) (bfld : Mapping Scalar) :
    Except Exit (List WideEnum) := do
  let enums ← bfld.items.mapM (fun entry => getWideBfldEnum py device path entry.1 entry.2)
  return enums.reduceOption

/-- The enums of a register: the constants of its flags, and the enums of its wide fields. -/
structure RegisterEnums where
  path : List String
  tag : String
  flags : List (String × Int)
  wide : List WideEnum
  deriving DecidableEq

/-- `get_enum_tag`. -/
def getEnumTag (device : String) (path : List String) : String := tagLead py device path ++ "_e"

/-- `emit_enum_definition`. -/
def emitEnumDefinition (device : String) (path : List String) (bfld : Mapping Scalar) :
    Except Exit RegisterEnums := do
  let flags ← getFlagEnumBfldValues py device path bfld
  let wide ← getWideBfldEnums py device path bfld
  return ⟨path, getEnumTag py device path, flags, wide⟩

/-- `collect_enum_definitions`. -/
def collectEnumDefinitions (device : String) :
    Mapping Scalar → List String → Except Exit (List RegisterEnums)
  | .nil, _ => .ok []
  | .scalar _ _ rest, path => collectEnumDefinitions device rest path
  | .mapping name val rest, path =>
    if startsWith name "_" then collectEnumDefinitions device rest path
    else do
      let fieldPath := path ++ [name]
      let here ← match val.find "offset", val.find "bfld" with
        | some _, some (.inr bfld) => do
          let enums ← emitEnumDefinition py device fieldPath bfld
          pure [enums]
        | some _, some (.inl _) => .error .exception
        | some _, none => pure []
        | none, _ => collectEnumDefinitions device val fieldPath
      let others ← collectEnumDefinitions device rest path
      return here ++ others

/-! ### Offsets and counts -/

/-- The children of a node without an offset: the first mapping decides. -/
def childOffset (name : String) : Mapping Scalar → Except Exit Int
  | .nil => .error (.noOffset name)
  | .scalar _ _ rest => childOffset name rest
  | .mapping k v rest =>
    if startsWith k "_" then childOffset name rest
    else match v.find "offset" with
      | some (.inl s) => match py.toIntAuto s with
        | some offset => .ok offset
        | none => .error .exception
      | some (.inr _) => .error .exception
      | none => childOffset k v

/-- `get_node_offset`. -/
def getNodeOffset (name : String) (val : Mapping Scalar) : Except Exit Int :=
  match val.find "offset" with
  | some (.inl s) => match py.toIntAuto s with
    | some offset => .ok offset
    | none => .error .exception
  | some (.inr _) => .error .exception
  | none => childOffset py name val

/-- `count{i}`, `count{i + 1}` and so on. The source's test for a gap never fails, since the loop
stops at the first key that is missing. -/
def countsFrom (repeated : Mapping Scalar) (i : Nat) : Nat → Except Exit (List Int)
  | 0 => .ok []
  | left + 1 => match repeated.find ("count" ++ toString i) with
    | some value => do
      let count ← intOf py value
      let counts ← countsFrom repeated (i + 1) left
      return count :: counts
    | none => .ok []

/-- `parse_repeated`, of what `_repeated` holds. A non-empty value that is no mapping ends in an
error or in an exception. -/
def parseRepeated (repeated : Option (Value Scalar)) : Except Exit (List Int) :=
  match repeated with
  | none => .ok []
  | some (.inl s) => if py.truthy s then .error .exception else .ok []
  | some (.inr .nil) => .ok []
  | some (.inr repeated) => match repeated.find "count" with
    | some value => do
      let count ← intOf py value
      return [count]
    | none => do
      let counts ← countsFrom py repeated 0 4
      if counts = [] then .error .noCount
      else if 3 < counts.length then .error .tooManyCounts
      else .ok counts

/-- `total_elements`. -/
def totalElements (counts : List Int) : Int := counts.foldl (· * ·) 1

/-! ### The members -/

/-- `unsigned {name} : {width};`, or of an enum's type. -/
structure BitMember where
  name : String
  width : Int
  tag : Option String
  deriving DecidableEq

/-- The whole register next to its bit-fields: of its enum's type, or an integer. -/
inductive Overlay
  | enum (tag : String) (bitWidth : Int)
  | raw (len : Int)
  deriving DecidableEq

/-- The members of a struct in their order. -/
inductive Members
  | nil
  /-- `uint8_t reserved{index}[{gap}];` -/
  | reserved (index : Nat) (gap : Int) (rest : Members)
  /-- `{type} {name}[..];` -/
  | register (name : String) (len : Int) (counts : List Int) (rest : Members)
  /-- `union { struct { .. } {name}_bit[..]; {overlay} {name}[..]; };` -/
  | union (name : String) (bits : List BitMember) (overlay : Overlay) (counts : List Int)
    (rest : Members)
  /-- `struct { .. } {name}[..];` -/
  | struct (name : String) (body : Members) (counts : List Int) (rest : Members)
  deriving DecidableEq

/-- `emit_register_overlay`. -/
def emitRegisterOverlay (device : String) (path : List String) (regLen : Int)
    (bfld : Mapping Scalar) : Except Exit Overlay := do
  let values ← getFlagEnumBfldValues py device path bfld
  return if values ≠ [] then .enum (getEnumTag py device path) (regLen * 8) else .raw regLen

/-- The bit-field members of a register. -/
def bitMembers (device : String) (path : List String) :
    List (String × Value Scalar) → Except Exit (List BitMember)
  | [] => .ok []
  | (bName, bBits) :: rest => do
    let bitWidth ← getBfldWidth py bName bBits
    let tag ← getWideBfldEnumTag py device path bName bBits
    let members ← bitMembers device path rest
    return ⟨bName, bitWidth, tag⟩ :: members

/-- `bit_sum`. -/
def bitSum (bits : List BitMember) : Int := (bits.map BitMember.width).sum

/-- The member of a register, and `reg_len`. -/
def registerMember (device : String) (path : List String) (name : String) (val : Mapping Scalar)
    (counts : List Int) : Except Exit ((Members → Members) × Int) :=
  match val.find "len" with
  | none => .error (.noLen name)
  | some len => do
    let regLen ← intOf py len
    if regLen ∉ [1, 2, 4, 8] then .error (.invalidLen regLen name)
    else match val.find "bfld" with
      | none => .ok (.register name regLen counts, regLen)
      | some (.inl _) => .error .exception
      | some (.inr bfld) => do
        let bits ← bitMembers py device path bfld.items
        if bitSum bits ≠ regLen * 8 then .error (.bitSum (bitSum bits) (regLen * 8) name)
        else
          let overlay ← emitRegisterOverlay py device path regLen bfld
          return (.union name bits overlay counts, regLen)

/-- The bytes between the pointer and a node, and the next `reserved_idx`. -/
def fillGap (pointer nodeStart : Int) (reservedIdx : Nat) : (Members → Members) × Nat :=
  if pointer < nodeStart then (.reserved reservedIdx (nodeStart - pointer), reservedIdx + 1)
  else (id, reservedIdx)

/-- `process_node`: the members, the pointer behind them and `reserved_idx`. -/
def processNode (device : String) :
    Mapping Scalar → Int → Nat → List String → Except Exit (Members × Int × Nat)
  | .nil, pointer, reservedIdx, _ => .ok (.nil, pointer, reservedIdx)
  | .scalar _ _ rest, pointer, reservedIdx, path =>
    processNode device rest pointer reservedIdx path
  | .mapping name val rest, pointer, reservedIdx, path =>
    if startsWith name "_" then processNode device rest pointer reservedIdx path
    else do
      let fieldPath := path ++ [name]
      let counts ← parseRepeated py (val.find "_repeated")
      let nodeStart ← getNodeOffset py name val
      if nodeStart < pointer then .error (.overlap name nodeStart pointer)
      else
        let gap := fillGap pointer nodeStart reservedIdx
        let node ← match val.find "offset" with
          | some _ => do
            let (member, regLen) ← registerMember py device fieldPath name val counts
            pure (member, regLen, gap.2)
          | none => do
            let (body, stop, reservedIdx) ← processNode device val nodeStart gap.2 fieldPath
            pure (fun others => Members.struct name body counts others, stop - nodeStart,
              reservedIdx)
        let (others, stop, reservedIdx) ← processNode device rest
          (nodeStart + node.2.1 * totalElements counts) node.2.2 path
        return (gap.1 (node.1 others), stop, reservedIdx)

/-! ### The device -/

/-- What is emitted for a device with a base address. -/
structure DeviceRegs where
  enums : List RegisterEnums
  members : Members
  baseAddr : Int
  /-- The addresses of the instances of a repeated device. -/
  addrs : Option (List Int)
  deriving DecidableEq

/-- The addresses from instance `i` on; `addr` is that of the one before. -/
def instanceAddrs (repeated : Mapping Scalar) (offset addr : Int) (i : Nat) :
    Nat → Except Exit (List Int)
  | 0 => .ok []
  | left + 1 => do
    let addr ← if i = 0 then pure addr
      else match repeated.find ("offset" ++ toString i) with
        | none => pure (addr + offset)
        | some (.inl s) => match py.asInt s with
          | some own => pure (addr + own)
          | none => .error .exception
        | some (.inr _) => .error .exception
    let addrs ← instanceAddrs repeated offset addr (i + 1) left
    return addr :: addrs

/-- The `_repeated` block of a device. -/
def deviceAddrs (name : String) (baseAddr : Int) (repeated : Value Scalar) :
    Except Exit (List Int) :=
  match repeated with
  | .inl _ => .error .exception
  | .inr repeated =>
    match repeated.find "count", repeated.find "offset" with
    | some (.inl count), some (.inl offset) => match py.asInt count, py.asInt offset with
      | some count, some offset => instanceAddrs py repeated offset baseAddr 0 count.toNat
      | _, _ => .error (.repeatedDevice name)
    | _, _ => .error (.repeatedDevice name)

/-- `process_device_reg`; `none` where there is no base address and nothing is emitted. -/
def processDeviceReg (name : String) (data : Mapping Scalar) :
    Except Exit (Option DeviceRegs) :=
  match data.find "_base_addr" with
  | some (.inl s) => match py.asInt s with
    | none => .ok none
    | some baseAddr => do
      let enums ← collectEnumDefinitions py name data []
      let (members, _, _) ← processNode py name data 0 0 []
      match data.find "_repeated" with
      | none => return some ⟨enums, members, baseAddr, none⟩
      | some repeated =>
        let addrs ← deviceAddrs py name baseAddr repeated
        return some ⟨enums, members, baseAddr, some addrs⟩
  | _ => .ok none

end Model

end UniSdk.Scripts.Registers
