import UniSdk.Library.Spans
import UniSdk.Scripts.Registers

/-!
# Where the registers lie

The members of a packed struct are laid out in their order without padding; an array is a row of
elements, and the bits of a bit-field struct are filled from the least significant one. What the
YAML says is read off into a description, whose registers lie at their declared offsets and whose
elements follow at the size of one element.
-/

namespace UniSdk.Scripts.Registers

open UniSdk.Library.Spans
open UniSdk.Library.Text (startsWith)

/-- One element of a register, or reserved bytes: its path with an index at every level. -/
structure Cell where
  path : List (String × Nat)
  isReserved : Bool
  start : Int
  size : Int
  deriving DecidableEq

/-- The cell of a struct's element, seen from outside. -/
def Cell.inside (name : String) (i : Nat) (cell : Cell) : Cell :=
  { cell with path := (name, i) :: cell.path }

def Cell.shift (k : Int) (cell : Cell) : Cell := { cell with start := cell.start + k }

/-! ### The usual layout of a packed struct -/

/-- The bytes of a struct of so many bits. -/
def bitBytes (bits : Int) : Int := (bits + 7) / 8

def Overlay.size : Overlay → Int
  | .enum _ bitWidth => bitBytes bitWidth
  | .raw len => len

/-- A member with its position in the struct of bit-fields, from the least significant bit on. -/
def bitPositions (position : Int) : List BitMember → List (BitMember × Int)
  | [] => []
  | bit :: rest => (bit, position) :: bitPositions (position + bit.width) rest

/-- The elements of an array. -/
def elements (name : String) (base len : Int) (counts : List Int) : List Cell :=
  (List.range (totalElements counts).toNat).map (fun i => ⟨[(name, i)], false, base + i * len, len⟩)

namespace Members

def size : Members → Int
  | nil => 0
  | reserved _ gap rest => gap + rest.size
  | register _ len counts rest => len * totalElements counts + rest.size
  | union _ bits overlay counts rest =>
    max (bitBytes (bitSum bits) * totalElements counts) (overlay.size * totalElements counts) +
      rest.size
  | struct _ body counts rest => body.size * totalElements counts + rest.size

/-- The offset of every register, with index 0 in every group. -/
def offsets (base : Int) : Members → List (List String × Int)
  | nil => []
  | reserved _ gap rest => rest.offsets (base + gap)
  | register name len counts rest =>
    ([name], base) :: rest.offsets (base + len * totalElements counts)
  | union name bits overlay counts rest => ([name], base) ::
      rest.offsets (base + max (bitBytes (bitSum bits) * totalElements counts)
        (overlay.size * totalElements counts))
  | struct name body counts rest =>
    (body.offsets base).map (fun entry => (name :: entry.1, entry.2)) ++
      rest.offsets (base + body.size * totalElements counts)

/-- Every element of every member. -/
def cells (base : Int) : Members → List Cell
  | nil => []
  | reserved index gap rest =>
    ⟨[("reserved" ++ toString index, 0)], true, base, gap⟩ :: rest.cells (base + gap)
  | register name len counts rest =>
    elements name base len counts ++ rest.cells (base + len * totalElements counts)
  | union name bits overlay counts rest => elements name base overlay.size counts ++
      rest.cells (base + max (bitBytes (bitSum bits) * totalElements counts)
        (overlay.size * totalElements counts))
  | struct name body counts rest =>
    (List.range (totalElements counts).toNat).flatMap
        (fun i : Nat => (body.cells (base + i * body.size)).map (Cell.inside name i)) ++
      rest.cells (base + body.size * totalElements counts)

/-- The declarations have a layout: no array length and no bit-field width is negative. -/
def HasLayout : Members → Prop
  | nil => True
  | reserved _ gap rest => 0 ≤ gap ∧ rest.HasLayout
  | register _ _ counts rest => (∀ count ∈ counts, 0 ≤ count) ∧ rest.HasLayout
  | union _ bits _ counts rest =>
    (∀ bit ∈ bits, 0 ≤ bit.width) ∧ (∀ count ∈ counts, 0 ≤ count) ∧ rest.HasLayout
  | struct _ body counts rest =>
    (∀ count ∈ counts, 0 ≤ count) ∧ body.HasLayout ∧ rest.HasLayout

/-- The bits of every union fill the whole register. -/
def EqualViews : Members → Prop
  | nil => True
  | reserved _ _ rest => rest.EqualViews
  | register _ _ _ rest => rest.EqualViews
  | union _ bits overlay _ rest => bitSum bits = overlay.size * 8 ∧ rest.EqualViews
  | struct _ body _ rest => body.EqualViews ∧ rest.EqualViews

/-- The bit-fields of every register, with its path. -/
def bitStructs (path : List String) : Members → List (List String × List BitMember)
  | nil => []
  | reserved _ _ rest => rest.bitStructs path
  | register _ _ _ rest => rest.bitStructs path
  | union name bits _ _ rest => (path ++ [name], bits) :: rest.bitStructs path
  | struct name body _ rest => body.bitStructs (path ++ [name]) ++ rest.bitStructs path

end Members

/-! ### What the YAML says -/

/-- The registers and groups in file order, with their declared numbers. -/
inductive Desc
  | nil
  | register (name : String) (offset len : Int) (counts : List Int)
    (widths : Option (List Int)) (rest : Desc)
  | group (name : String) (counts : List Int) (body : Desc) (rest : Desc)
  deriving DecidableEq

namespace Desc

/-- The offset of the first register. -/
def start : Desc → Int
  | nil => 0
  | register _ offset _ _ _ _ => offset
  | group _ _ body _ => body.start

/-- The end of the last node; `before` where there is none. -/
def stopFrom (before : Int) : Desc → Int
  | nil => before
  | register _ offset len counts _ rest => rest.stopFrom (offset + len * totalElements counts)
  | group _ counts body rest => rest.stopFrom
      (body.start + (body.stopFrom body.start - body.start) * totalElements counts)

/-- The size of one element of a group. -/
def elementSize (body : Desc) : Int := body.stopFrom body.start - body.start

/-- The declared offsets. -/
def offsets : Desc → List (List String × Int)
  | nil => []
  | register name offset _ _ _ rest => ([name], offset) :: rest.offsets
  | group name _ body rest =>
    body.offsets.map (fun entry => (name :: entry.1, entry.2)) ++ rest.offsets

/-- Every element of every register: an element of a group lies its index times the element size
further than the declared offsets. -/
def cells : Desc → List Cell
  | nil => []
  | register name offset len counts _ rest => elements name offset len counts ++ rest.cells
  | group name counts body rest =>
    (List.range (totalElements counts).toNat).flatMap
        (fun i : Nat => body.cells.map (fun cell => (cell.shift (i * body.elementSize)).inside name i)) ++
      rest.cells

/-- No count and no width is negative. -/
def NonNegative : Desc → Prop
  | nil => True
  | register _ _ _ counts widths rest =>
    (∀ width ∈ widths.getD [], 0 ≤ width) ∧ (∀ count ∈ counts, 0 ≤ count) ∧ rest.NonNegative
  | group _ counts body rest =>
    (∀ count ∈ counts, 0 ≤ count) ∧ body.NonNegative ∧ rest.NonNegative

/-- Two nodes have a byte in common. -/
def Overlapping (d : Desc) : Prop := ¬ d.cells.Pairwise (Apart Cell.start Cell.size)

end Desc

section Reading

variable {Scalar : Type*} (py : Python Scalar)

/-- The widths of bit-fields. -/
def readWidths : List (String × Value Scalar) → Option (List Int)
  | [] => some []
  | (bName, bDesc) :: rest => do
    let width ← (getBfldWidth py bName bDesc).toOption
    let widths ← readWidths rest
    return width :: widths

/-- The length of a register and the widths of its bit-fields. -/
def readRegister (val : Mapping Scalar) : Option (Int × Option (List Int)) := do
  let len ← (val.find "len").bind (fun len => (intOf py len).toOption)
  let widths ← match val.find "bfld" with
    | none => some none
    | some (.inl _) => none
    | some (.inr bfld) => (readWidths py bfld.items).map some
  return (len, widths)

/-- The description of a device or of a group. -/
def describe : Mapping Scalar → Option Desc
  | .nil => some .nil
  | .scalar _ _ rest => describe rest
  | .mapping name val rest =>
    if startsWith name "_" then describe rest
    else do
      let counts ← (parseRepeated py (val.find "_repeated")).toOption
      match val.find "offset" with
      | some _ => do
        let offset ← (getNodeOffset py name val).toOption
        let (len, widths) ← readRegister py val
        let others ← describe rest
        return .register name offset len counts widths others
      | none => do
        let body ← describe val
        let others ← describe rest
        return .group name counts body others

/-- The constants for the single bits of a register, at their positions. -/
def flagsAt (device : String) (path : List String) (bits : List BitMember) :
    List (String × Int) :=
  (bitPositions 0 bits).filterMap (fun entry =>
    if entry.1.width = 1 ∧ isReservedBfld py entry.1.name = false then
      some (valueLead py device path ++ "_" ++ py.upper entry.1.name, entry.2)
    else none)

/-- Every register lies where the description says. -/
structure PutsRegisters (device : String) (d : Desc) (regs : DeviceRegs) : Prop where
  hasLayout : regs.members.HasLayout
  equalViews : regs.members.EqualViews
  offsets : regs.members.offsets 0 = d.offsets
  elements : (regs.members.cells 0).filter (fun cell => !cell.isReserved) = d.cells
  apart : (regs.members.cells 0).Pairwise (Apart Cell.start Cell.size)
  flags : regs.enums.map (fun enums => (enums.path, enums.flags)) =
    (regs.members.bitStructs []).map (fun entry => (entry.1, flagsAt py device entry.1 entry.2))
  rejected : ¬ d.Overlapping

end Reading

end UniSdk.Scripts.Registers
