import UniSdk.Storage.Frame
import UniSdk.Storage.Write

/-!
# The MCUboot flash map

The partition table of `flash_map_backend.c` over its configuration constants,
the range check, and the three accessors on top of the storage layer. The three
`#error` checks of the file are fields of the configuration: a configuration
that violates one does not compile.
-/

namespace UniSdk.Mcuboot

open Library.Cells Library.Aligned Library.Words Storage

def FLASH_SECTOR_SIZE : Nat := 4096

def FLASH_AREA_IMAGE_PRIMARY : Nat := 0
def FLASH_AREA_IMAGE_SECONDARY : Nat := 1
def FLASH_AREA_IMAGE_SCRATCH : Nat := 2
def FLASH_AREA_BOOTLOADER : Nat := 3

/-- `struct flash_area`, without the fields that no accessor reads. -/
structure FlashArea where
  faId : Nat
  faOff : Nat
  faSize : Nat
  deriving DecidableEq

structure FlashConfig where
  romStartAddr : Nat
  bootloaderSize : Nat
  slotSize : Nat
  scratchSize : Nat
  bootloader_sectors : bootloaderSize % FLASH_SECTOR_SIZE = 0
  slot_sectors : slotSize % FLASH_SECTOR_SIZE = 0
  scratch_sectors : scratchSize % FLASH_SECTOR_SIZE = 0

namespace FlashConfig

variable (c : FlashConfig)

def imagePrimary : FlashArea where
  faId := FLASH_AREA_IMAGE_PRIMARY
  faOff := u32 (c.romStartAddr + c.bootloaderSize)
  faSize := c.slotSize

def imageSecondary : FlashArea where
  faId := FLASH_AREA_IMAGE_SECONDARY
  faOff := u32 (c.romStartAddr + c.bootloaderSize + c.slotSize)
  faSize := c.slotSize

def imageScratch : FlashArea where
  faId := FLASH_AREA_IMAGE_SCRATCH
  faOff := u32 (c.romStartAddr + c.bootloaderSize + 2 * c.slotSize)
  faSize := c.scratchSize

def bootloader : FlashArea where
  faId := FLASH_AREA_BOOTLOADER
  faOff := u32 c.romStartAddr
  faSize := c.bootloaderSize

def partitions : List FlashArea :=
  [c.imagePrimary, c.imageSecondary, c.imageScratch, c.bootloader]

/-- The first address after the table. -/
def tableEnd : Nat := c.romStartAddr + c.bootloaderSize + 2 * c.slotSize + c.scratchSize

end FlashConfig

/-- `flash_area_range_is_valid`; `none` is the null pointer. -/
def flashAreaRangeIsValid (fa : Option FlashArea) (off len : Nat) : Bool :=
  match fa with
  | none => false
  | some fa => len != 0 && off ≤ fa.faSize && len ≤ fa.faSize - off

variable {σ : Type}

/-- The address passed on to the storage layer. -/
def areaAddr (fa : Option FlashArea) (off : Nat) : Nat :=
  u32 ((fa.elim 0 FlashArea.faOff) + off)

/-- `flash_area_read`; `dst = false` is a null destination. -/
def flashAreaRead (devices : List (Device σ)) (fa : Option FlashArea) (off : Nat) (dst : Bool)
    (len : Nat) (s : State σ) : Int × (Nat → Byte) × State σ :=
  if !dst || !flashAreaRangeIsValid fa off len then (-1, fun _ => 0, s)
  else tlkStorageRead devices (areaAddr fa off) dst len s

/-- `flash_area_write` -/
def flashAreaWrite (devices : List (Device σ)) (fa : Option FlashArea) (off : Nat)
    (src : Option (Nat → Byte)) (len : Nat) (s : State σ) : Int × State σ :=
  if src.isNone || !flashAreaRangeIsValid fa off len then (-1, s)
  else tlkStorageWrite devices (areaAddr fa off) src len s

/-- `flash_area_erase` -/
def flashAreaErase (devices : List (Device σ)) (fa : Option FlashArea) (off len : Nat)
    (s : State σ) : Int × State σ :=
  if !flashAreaRangeIsValid fa off len then (-1, s)
  else tlkStorageErase devices (areaAddr fa off) len s

/-- A call of one of the accessors, with any arguments. -/
inductive FlashCall where
  | read (fa : Option FlashArea) (off : Nat) (dst : Bool) (len : Nat)
  | write (fa : Option FlashArea) (off : Nat) (src : Option (Nat → Byte)) (len : Nat)
  | erase (fa : Option FlashArea) (off len : Nat)

namespace FlashCall

def area : FlashCall → Option FlashArea
  | read fa _ _ _ => fa
  | write fa _ _ _ => fa
  | erase fa _ _ => fa

/-- The state a call leaves; its result does not matter for isolation. -/
def run (devices : List (Device σ)) (call : FlashCall) (s : State σ) : State σ :=
  match call with
  | read fa off dst len => (flashAreaRead devices fa off dst len s).2.2
  | write fa off src len => (flashAreaWrite devices fa off src len s).2
  | erase fa off len => (flashAreaErase devices fa off len s).2

/-- The bytes of the partition that the call addresses. -/
def InArea (call : FlashCall) (j : Nat) : Prop :=
  ∃ fa, call.area = some fa ∧ fa.faOff ≤ j ∧ j < fa.faOff + fa.faSize

end FlashCall

/-- A sequence of calls. -/
def runCalls (devices : List (Device σ)) (calls : List FlashCall) (s : State σ) : State σ :=
  calls.foldl (fun s call => call.run devices s) s

/-- The partition table lies in one device, without address wrap, at a start
aligned to a page that divides the sector; its callbacks are page-local. -/
structure FlashLayout (c : FlashConfig) (devices : List (Device σ)) (dev : Device σ)
    (cells : σ → Nat → Byte) : Prop where
  rom_aligned : c.romStartAddr % dev.page = 0
  page_divides : FLASH_SECTOR_SIZE % dev.page = 0
  no_wrap : c.tableEnd ≤ 2 ^ 32
  one_device : ∀ addr len, c.romStartAddr ≤ addr → addr + len ≤ c.tableEnd → 0 < len →
    OnlyFound devices dev addr len
  page_local : PageLocal dev cells

namespace FlashLayout

variable {c : FlashConfig} {devices : List (Device σ)} {dev : Device σ} {cells : σ → Nat → Byte}

theorem paged (h : FlashLayout c devices dev cells) : dev.page ≠ 0 := by
  intro h0
  have hdiv := h.page_divides
  rw [h0, Nat.mod_zero] at hdiv
  exact absurd hdiv (by decide)

/-- Whole sectors are whole pages. -/
theorem sectors_aligned (h : FlashLayout c devices dev cells) {n : Nat}
    (hn : n % FLASH_SECTOR_SIZE = 0) : n % dev.page = 0 :=
  Nat.mod_eq_zero_of_dvd
    ((Nat.dvd_of_mod_eq_zero h.page_divides).trans (Nat.dvd_of_mod_eq_zero hn))

/-- A partition that can be addressed at all is page-aligned at both ends and
lies in the table, in front of or behind the bootloader's end. -/
theorem partition_bounds (h : FlashLayout c devices dev cells) {fa : FlashArea}
    (hfa : fa ∈ c.partitions) (hsize : 0 < fa.faSize) :
    fa.faOff % dev.page = 0 ∧ (fa.faOff + fa.faSize) % dev.page = 0 ∧
    c.romStartAddr ≤ fa.faOff ∧ fa.faOff + fa.faSize ≤ c.tableEnd ∧
    (fa ≠ c.bootloader → c.romStartAddr + c.bootloaderSize ≤ fa.faOff) := by
  have hr := Nat.dvd_of_mod_eq_zero h.rom_aligned
  have hb := Nat.dvd_of_mod_eq_zero (h.sectors_aligned c.bootloader_sectors)
  have hs := Nat.dvd_of_mod_eq_zero (h.sectors_aligned c.slot_sectors)
  have hc := Nat.dvd_of_mod_eq_zero (h.sectors_aligned c.scratch_sectors)
  have hw := h.no_wrap
  unfold FlashConfig.tableEnd at hw ⊢
  simp only [FlashConfig.partitions, List.mem_cons, List.not_mem_nil, or_false] at hfa
  have hrb := Nat.dvd_add hr hb
  rcases hfa with rfl | rfl | rfl | rfl
  · have hs0 : 0 < c.slotSize := hsize
    simp only [FlashConfig.imagePrimary]
    rw [u32_of_lt (by omega)]
    refine ⟨Nat.mod_eq_zero_of_dvd hrb, Nat.mod_eq_zero_of_dvd (Nat.dvd_add hrb hs),
      by omega, by omega, fun _ => Nat.le_refl _⟩
  · have hs0 : 0 < c.slotSize := hsize
    have hstart := Nat.dvd_add hrb hs
    simp only [FlashConfig.imageSecondary]
    rw [u32_of_lt (by omega)]
    refine ⟨Nat.mod_eq_zero_of_dvd hstart, Nat.mod_eq_zero_of_dvd (Nat.dvd_add hstart hs),
      by omega, by omega, fun _ => by omega⟩
  · have hc0 : 0 < c.scratchSize := hsize
    have hstart := Nat.dvd_add hrb (Nat.dvd_mul_left_of_dvd hs 2)
    simp only [FlashConfig.imageScratch]
    rw [u32_of_lt (by omega)]
    refine ⟨Nat.mod_eq_zero_of_dvd hstart, Nat.mod_eq_zero_of_dvd (Nat.dvd_add hstart hc),
      by omega, by omega, fun _ => by omega⟩
  · have hb0 : 0 < c.bootloaderSize := hsize
    simp only [FlashConfig.bootloader]
    rw [u32_of_lt (by omega)]
    refine ⟨Nat.mod_eq_zero_of_dvd hr, Nat.mod_eq_zero_of_dvd hrb, Nat.le_refl _, by omega,
      fun hne => absurd rfl hne⟩

/-- A request that the range check accepts: where it goes, and that its pages
are pages of the partition. -/
structure Accepted (dev : Device σ) (fa : FlashArea) (off len : Nat) : Prop where
  addr : areaAddr (some fa) off = fa.faOff + off
  fits : fa.faOff + off + len ≤ fa.faOff + fa.faSize
  nonempty : 0 < len
  end_aligned : (fa.faOff + fa.faSize) % dev.page = 0
  end_le : fa.faOff + fa.faSize ≤ 2 ^ 32
  pages : ∀ j, OnPages dev.page (fa.faOff + off) len j → fa.faOff ≤ j ∧ j < fa.faOff + fa.faSize

theorem accepted (h : FlashLayout c devices dev cells) {fa : FlashArea}
    (hfa : fa ∈ c.partitions) {off len : Nat}
    (hvalid : flashAreaRangeIsValid (some fa) off len = true) :
    Accepted dev fa off len ∧ OnlyFound devices dev (areaAddr (some fa) off) len := by
  simp only [flashAreaRangeIsValid, Bool.and_eq_true, bne_iff_ne, ne_eq, decide_eq_true_eq]
    at hvalid
  obtain ⟨⟨hlen, hoff⟩, hfit⟩ := hvalid
  obtain ⟨hlo, hhi, hstart, hend, _⟩ := h.partition_bounds hfa (by omega)
  have hw := h.no_wrap
  have haddr : areaAddr (some fa) off = fa.faOff + off :=
    u32_of_lt (by simp only [Option.elim]; omega)
  refine ⟨⟨haddr, by omega, by omega, hhi, by omega, ?_⟩, ?_⟩
  · rintro j ⟨k, hk, hk', hpage⟩
    exact block_inside (Nat.pos_of_ne_zero h.paged) hlo hhi (by omega) (by omega) hpage
  · rw [haddr]
    exact h.one_device _ _ (by omega) (by omega) (by omega)

/-- A range that passes the check is one of an area, which is in the table if the caller's is. -/
theorem accepted_area (h : FlashLayout c devices dev cells) {fa : Option FlashArea}
    (hfa : ∀ a, fa = some a → a ∈ c.partitions) {off len : Nat}
    (hvalid : flashAreaRangeIsValid fa off len = true) :
    ∃ a, fa = some a ∧ Accepted dev a off len ∧
      OnlyFound devices dev (areaAddr (some a) off) len := by
  cases fa with
  | none => exact absurd hvalid (by simp [flashAreaRangeIsValid])
  | some a => exact ⟨a, rfl, h.accepted (hfa a rfl) hvalid⟩

/-- One call leaves everything outside its partition as it was; a rejected call
changes nothing at all. -/
theorem call_within (h : FlashLayout c devices dev cells) {call : FlashCall}
    (hcall : ∀ fa, call.area = some fa → fa ∈ c.partitions) (s : State σ) :
    Within call.InArea (cells s.world) (cells (call.run devices s).world) := by
  cases call with
  | read fa off dst len =>
    simp only [FlashCall.run, flashAreaRead]
    split
    · exact Within.refl _ _
    · rename_i hv
      simp only [Bool.or_eq_true, Bool.not_eq_true', not_or, Bool.not_eq_false] at hv
      obtain ⟨a, rfl, hacc, honly⟩ := h.accepted_area hcall hv.2
      refine (tlkStorageRead_within h.page_local honly dst s).mono fun j hj => ?_
      rw [hacc.addr] at hj
      exact ⟨a, rfl, hacc.pages j hj⟩
  | write fa off src len =>
    simp only [FlashCall.run, flashAreaWrite]
    split
    · exact Within.refl _ _
    · rename_i hv
      simp only [Bool.or_eq_true, Bool.not_eq_true', not_or, Bool.not_eq_false] at hv
      obtain ⟨a, rfl, hacc, honly⟩ := h.accepted_area hcall hv.2
      refine (tlkStorageWrite_within h.page_local h.paged honly hacc.end_aligned hacc.end_le
        (by rw [hacc.addr]; exact hacc.fits) src s).mono fun j hj => ?_
      rw [hacc.addr] at hj
      exact ⟨a, rfl, hacc.pages j hj⟩
  | erase fa off len =>
    simp only [FlashCall.run, flashAreaErase]
    split
    · exact Within.refl _ _
    · rename_i hv
      simp only [Bool.not_eq_true', Bool.not_eq_false] at hv
      obtain ⟨a, rfl, hacc, honly⟩ := h.accepted_area hcall hv
      refine (tlkStorageErase_within h.page_local h.paged honly hacc.end_aligned hacc.end_le
        (by rw [hacc.addr]; exact hacc.fits) s).mono fun j hj => ?_
      rw [hacc.addr] at hj
      exact ⟨a, rfl, hacc.pages j hj⟩

/-- No call on another partition reaches the bootloader. -/
theorem not_inArea_bootloader (h : FlashLayout c devices dev cells) {call : FlashCall}
    (hcall : ∀ fa, call.area = some fa → fa ∈ c.partitions)
    (hother : call.area ≠ some c.bootloader) {j : Nat}
    (hj : j < c.romStartAddr + c.bootloaderSize) : ¬ call.InArea j := by
  rintro ⟨fa, hfa, hlo, hhi⟩
  have hne : fa ≠ c.bootloader := fun he => hother (by rw [hfa, he])
  obtain ⟨_, _, _, _, hbehind⟩ := h.partition_bounds (hcall fa hfa) (by omega)
  have := hbehind hne
  omega

end FlashLayout

/-- The Kconfig defaults over a flash that starts at `0x20000000`. -/
def defaultConfig : FlashConfig where
  romStartAddr := 0x20000000
  bootloaderSize := 0x90000
  slotSize := 0xB0000
  scratchSize := 0x4000
  bootloader_sectors := by decide
  slot_sectors := by decide
  scratch_sectors := by decide

theorem memoryDevice_pageLocal {page : Nat} (base size : Nat) (clean : Byte) (hp : page ≠ 0) :
    PageLocal (memoryDevice base size page clean) id := by
  have hframe : ∀ (mem : Nat → Byte) (addr len : Nat) (data : Nat → Byte),
      Within (OnPages page addr len) mem (overwrite mem addr len data) := by
    intro mem addr len data j hj
    refine overwrite_outside _ _ (Classical.byContradiction fun hin => hj ⟨j, ?_, ?_, rfl⟩)
    · omega
    · omega
  constructor
  case read =>
    rintro _ ⟨⟩ addr len mem
    exact Within.refl _ _
  case erase =>
    intro f hf addr len mem
    simp only [memoryDevice, if_neg hp] at hf
    obtain rfl := Option.some.inj hf
    simp only [id_eq]
    exact hframe mem addr len _
  case write =>
    rintro _ ⟨⟩ addr data len mem
    simp only [id_eq]
    exact hframe mem addr len _

/-- A flash of two megabytes at that address. -/
def defaultFlash : Device (Nat → Byte) := memoryDevice 0x20000000 0x200000 4096 0xFF

theorem defaultConfig_layout : FlashLayout defaultConfig [defaultFlash] defaultFlash id where
  rom_aligned := by decide
  page_divides := by decide
  no_wrap := by decide
  one_device := fun _ _ _ _ _ _ h _ => List.mem_singleton.mp h
  page_local := memoryDevice_pageLocal _ _ _ (by decide)

/-- Over every sequence of calls, with any arguments and with callbacks failing
anywhere, each call changes bytes of its own partition only; a sequence that
never addresses the bootloader leaves the bootloader as it was. -/
theorem flash_partitions_isolated {c : FlashConfig} {devices : List (Device σ)}
    {dev : Device σ} {cells : σ → Nat → Byte} (h : FlashLayout c devices dev cells)
    (calls : List FlashCall)
    (hcalls : ∀ call ∈ calls, ∀ fa, call.area = some fa → fa ∈ c.partitions) (s : State σ) :
    (∀ before call after, calls = before ++ call :: after → ∀ j, ¬ call.InArea j →
      cells (runCalls devices (before ++ [call]) s).world j =
        cells (runCalls devices before s).world j) ∧
    ((∀ call ∈ calls, call.area ≠ some c.bootloader) →
      ∀ j, c.romStartAddr ≤ j → j < c.romStartAddr + c.bootloaderSize →
        cells (runCalls devices calls s).world j = cells s.world j) := by
  constructor
  · intro before call after hsplit j hj
    have hmem : call ∈ calls := by simp [hsplit]
    simp only [runCalls, List.foldl_append, List.foldl_cons, List.foldl_nil]
    exact h.call_within (hcalls call hmem) _ j hj
  · intro hother j _ hj
    induction calls generalizing s with
    | nil => rfl
    | cons call calls ih =>
      have hhead := hcalls call List.mem_cons_self
      rw [runCalls, List.foldl_cons]
      refine (ih (fun c hc => hcalls c (List.mem_cons_of_mem _ hc)) (call.run devices s)
        fun c hc => hother c (List.mem_cons_of_mem _ hc)).trans ?_
      exact h.call_within hhead s j
        (h.not_inArea_bootloader hhead (hother call List.mem_cons_self) hj)

/-- A write into the scratch area and an erase of the primary slot, under the
default configuration. -/
theorem flash_partitions_isolated_default :
    let calls : List FlashCall :=
      [.write (some defaultConfig.imageScratch) 100 (some fun _ => 0) 8,
       .erase (some defaultConfig.imagePrimary) 0 0xB0000]
    let s : State (Nat → Byte) := ⟨fun _ => 0xA5, fun _ _ => 0⟩
    (∀ before call after, calls = before ++ call :: after → ∀ j, ¬ call.InArea j →
      id (runCalls [defaultFlash] (before ++ [call]) s).world j =
        id (runCalls [defaultFlash] before s).world j) ∧
    ((∀ call ∈ calls, call.area ≠ some defaultConfig.bootloader) →
      ∀ j, defaultConfig.romStartAddr ≤ j →
        j < defaultConfig.romStartAddr + defaultConfig.bootloaderSize →
        id (runCalls [defaultFlash] calls s).world j = id s.world j) := by
  intro calls s
  refine flash_partitions_isolated defaultConfig_layout calls ?_ s
  intro call hcall fa hfa
  simp only [calls, List.mem_cons, List.not_mem_nil, or_false] at hcall
  rcases hcall with rfl | rfl
  · obtain rfl := Option.some.inj hfa
    simp [FlashConfig.partitions]
  · obtain rfl := Option.some.inj hfa
    simp [FlashConfig.partitions]

end UniSdk.Mcuboot
