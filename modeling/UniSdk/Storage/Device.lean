import UniSdk.Library.Cells
import UniSdk.Library.Words

/-!
# Storage devices and their registry

`struct tlk_storage_device` with the fields the storage layer reads, and the
address lookup over the registered devices. A callback is a function over an
arbitrary outside world `σ`, so it may fail, keep state and alter cells in any
way; what a particular device promises is a hypothesis of the results, not part
of the type. Addresses and sizes are naturals and every sum that the 32-bit
target could wrap is taken modulo `2^32`.
-/

namespace UniSdk.Storage

open Library.Cells Library.Words

abbrev Byte := UInt8

def EINVAL : Int := 22
def ENODEV : Int := 19
def ENOSYS : Int := 88

def STORAGE_DEVICE_DEFAULT_BUFFER_SIZE : Nat := 256

/-- The callback's result, the bytes it stored through `buf`, the world it left. -/
abbrev ReadCallback (σ : Type) := Nat → Nat → σ → Int × (Nat → Byte) × σ

abbrev EraseCallback (σ : Type) := Nat → Nat → σ → Int × σ

/-- Address, data, length. -/
abbrev WriteCallback (σ : Type) := Nat → (Nat → Byte) → Nat → σ → Int × σ

/-- The fields of `struct tlk_storage_device` that `storage.c` and
`storage_device.c` read. `id` is the identity of the object: it owns a buffer. -/
structure Device (σ : Type) where
  id : Nat
  base : Nat
  size : Nat
  page : Nat
  cleanByte : Byte
  read : Option (ReadCallback σ)
  erase : Option (EraseCallback σ)
  write : Option (WriteCallback σ)
  hasBuffer : Bool

/-- A device on which paged access is possible: a positive page and no null
pointer among the three callbacks and the buffer. -/
structure Pages (σ : Type) where
  page : Nat
  page_pos : 0 < page
  cleanByte : Byte
  read : ReadCallback σ
  erase : EraseCallback σ
  write : WriteCallback σ

/-- The `!dev->read || !dev->buffer || !dev->erase || !dev->write` test. -/
def Device.pages? {σ : Type} (dev : Device σ) (h : dev.page ≠ 0) : Option (Pages σ) :=
  match dev.read, dev.hasBuffer, dev.erase, dev.write with
  | some read, true, some erase, some write =>
    some { page := dev.page, page_pos := Nat.pos_of_ne_zero h, cleanByte := dev.cleanByte,
           read, erase, write }
  | _, _, _, _ => none

/-- The outside world and the contents of every device's buffer. -/
structure State (σ : Type) where
  world : σ
  buffer : Nat → Nat → Byte

variable {σ : Type}

def State.setBuffer (s : State σ) (id : Nat) (buffer : Nat → Byte) : State σ :=
  { s with buffer := Function.update s.buffer id buffer }

@[simp] theorem State.setBuffer_world (s : State σ) (id : Nat) (buffer : Nat → Byte) :
    (s.setBuffer id buffer).world = s.world := rfl

/-- The range test of `tlk_storage_find_device`, sums wrapping. -/
def Device.covers (dev : Device σ) (addr len : Nat) : Bool :=
  dev.base ≤ addr && u32 (addr + len) ≤ u32 (dev.base + dev.size)

/-- `tlk_storage_find_device`: the first registered device that covers the range. -/
def tlkStorageFindDevice (devices : List (Device σ)) (addr len : Nat) : Option (Device σ) :=
  devices.find? fun dev => dev.covers addr len

/-- `dev` is registered and no other registered device covers the range. -/
structure OnlyCover (devices : List (Device σ)) (dev : Device σ) (addr len : Nat) : Prop where
  registered : dev ∈ devices
  only : ∀ d ∈ devices, d.covers addr len = true → d = dev

theorem covers_of_range {dev : Device σ} {addr len : Nat} (hlo : dev.base ≤ addr)
    (hhi : addr + len ≤ dev.base + dev.size) (hwrap : dev.base + dev.size < 2 ^ 32) :
    dev.covers addr len = true := by
  simp only [Device.covers, Bool.and_eq_true, decide_eq_true_eq]
  rw [u32_of_lt hwrap, u32_of_lt (Nat.lt_of_le_of_lt hhi hwrap)]
  exact ⟨hlo, hhi⟩

/-- Whatever is found is registered and passed the range test. -/
theorem findDevice_some {devices : List (Device σ)} {d : Device σ} {addr len : Nat}
    (h : tlkStorageFindDevice devices addr len = some d) :
    d ∈ devices ∧ d.covers addr len = true := by
  have hp := List.find?_some (p := fun dev : Device σ => dev.covers addr len) h
  exact ⟨List.mem_of_find?_eq_some h, hp⟩

theorem findDevice_of_only {devices : List (Device σ)} {dev : Device σ} {addr len : Nat}
    (h : OnlyCover devices dev addr len) (hc : dev.covers addr len = true) :
    tlkStorageFindDevice devices addr len = some dev := by
  cases hf : tlkStorageFindDevice devices addr len with
  | none => exact absurd hc (List.find?_eq_none.mp hf dev h.registered)
  | some d =>
    obtain ⟨hmem, hcov⟩ := findDevice_some hf
    rw [h.only d hmem hcov]

end UniSdk.Storage
