import UniSdk.Library.Regions
import UniSdk.Library.Replies
import UniSdk.Mcuboot.Sectors
import UniSdk.Storage.Erase
import UniSdk.Storage.SocFlash

/-!
# The flash map as byte arrays

What MCUboot takes the flash map to be: each partition is a byte array of its own, of its own
size, that is read, written and erased at any range, and a range that leaves the partition is
refused. The accessors over the storage layer reply the same to every sequence of calls.
-/

namespace UniSdk.Mcuboot

open Library.Cells Library.Words Library.Regions Library.Replies Storage

def FLASH_ERASED_VAL : Byte := 0xFF

/-- `flash_area_erased_val` -/
def flashAreaErasedVal (_ : Option FlashArea) : Byte := FLASH_ERASED_VAL

/-- The result of a call, and what a read that succeeded has stored in its destination. -/
structure Answer where
  result : Int
  data : List Byte
  deriving DecidableEq

variable {σ : Type}

/-- A call of one of the accessors, with its answer. -/
def FlashCall.answer (devices : List (Device σ)) (s : State σ) (call : FlashCall) :
    Answer × State σ :=
  match call with
  | .read fa off dst len =>
    let r := flashAreaRead devices fa off dst len s
    (⟨r.1, if r.1 = 0 then (List.range len).map r.2.1 else []⟩, r.2.2)
  | .write fa off src len =>
    let r := flashAreaWrite devices fa off src len s
    (⟨r.1, []⟩, r.2)
  | .erase fa off len =>
    let r := flashAreaErase devices fa off len s
    (⟨r.1, []⟩, r.2)

/-! ## The byte arrays -/

/-- The contents of each partition. -/
abbrev Partitions := FlashArea → Nat → Byte

/-- The range is one of the area. -/
def InRange (fa : FlashArea) (off len : Nat) : Prop := 0 < len ∧ off + len ≤ fa.faSize

instance (fa : FlashArea) (off len : Nat) : Decidable (InRange fa off len) :=
  inferInstanceAs (Decidable (_ ∧ _))

def Partitions.put (parts : Partitions) (fa : FlashArea) (off len : Nat) (data : Nat → Byte) :
    Partitions :=
  Function.update parts fa (overwrite (parts fa) off len data)

/-- What a call is to do: an erase fills its range with the erased value, and whatever is not a
range of an area or lacks its buffer is refused. -/
def Partitions.answer (parts : Partitions) : FlashCall → Answer × Partitions
  | .read (some fa) off true len =>
    if InRange fa off len then (⟨0, (List.range len).map fun i => parts fa (off + i)⟩, parts)
    else (⟨-1, []⟩, parts)
  | .write (some fa) off (some src) len =>
    if InRange fa off len then (⟨0, []⟩, parts.put fa off len src) else (⟨-1, []⟩, parts)
  | .erase (some fa) off len =>
    if InRange fa off len then
      (⟨0, []⟩, parts.put fa off len fun _ => flashAreaErasedVal (some fa))
    else (⟨-1, []⟩, parts)
  | _ => (⟨-1, []⟩, parts)

/-! ## The partitions in the flash -/

/-- Where the partition table puts each partition. -/
def areaPlacement : Placement FlashArea := ⟨FlashArea.faOff, FlashArea.faSize⟩

/-- The table lies in one paged device over a byte array, which erases to the value that MCUboot
is told; no other device covers a range of the table. -/
structure StoreLayout (c : FlashConfig) (devices : List (Device σ)) (dev : Device σ)
    (cells : σ → Nat → Byte) : Prop where
  flash : PagedFlash dev cells
  clean : ∀ fa, dev.cleanByte = flashAreaErasedVal fa
  base_le : dev.base ≤ c.romStartAddr
  end_le : c.tableEnd ≤ dev.base + dev.size
  only : ∀ addr len, c.romStartAddr ≤ addr → addr + len ≤ c.tableEnd → 0 < len →
    OnlyCover devices dev addr len

/-- A partition that can be addressed at all lies in the table. -/
theorem partition_inside {c : FlashConfig} (hwrap : c.tableEnd < 2 ^ 32) {fa : FlashArea}
    (hfa : fa ∈ c.partitions) (hsize : 0 < fa.faSize) :
    c.romStartAddr ≤ fa.faOff ∧ fa.faOff + fa.faSize ≤ c.tableEnd := by
  unfold FlashConfig.tableEnd at hwrap ⊢
  simp only [FlashConfig.partitions, List.mem_cons, List.not_mem_nil, or_false] at hfa
  rcases hfa with rfl | rfl | rfl | rfl
  · simp only [FlashConfig.imagePrimary] at hsize ⊢
    rw [u32_of_lt (by omega)]
    omega
  · simp only [FlashConfig.imageSecondary] at hsize ⊢
    rw [u32_of_lt (by omega)]
    omega
  · simp only [FlashConfig.imageScratch] at hsize ⊢
    rw [u32_of_lt (by omega)]
    omega
  · simp only [FlashConfig.bootloader] at hsize ⊢
    rw [u32_of_lt (by omega)]
    omega

theorem partitions_apart {c : FlashConfig} (hwrap : c.tableEnd < 2 ^ 32) :
    areaPlacement.Apart c.partitions := by
  intro fa hfa fb hfb hne x y hx hy heq
  simp only [areaPlacement] at hx hy heq
  unfold FlashConfig.tableEnd at hwrap
  simp only [FlashConfig.partitions, List.mem_cons, List.not_mem_nil, or_false] at hfa hfb
  rcases hfa with rfl | rfl | rfl | rfl <;> rcases hfb with rfl | rfl | rfl | rfl <;>
    first
    | exact hne rfl
    | (simp only [FlashConfig.imagePrimary, FlashConfig.imageSecondary, FlashConfig.imageScratch,
        FlashConfig.bootloader] at hx hy heq
       rw [u32_of_lt (by omega), u32_of_lt (by omega)] at heq
       omega)

theorem rangeIsValid_iff (fa : FlashArea) (off len : Nat) :
    flashAreaRangeIsValid (some fa) off len = true ↔ InRange fa off len := by
  simp only [flashAreaRangeIsValid, Bool.and_eq_true, bne_iff_ne, ne_eq, decide_eq_true_eq,
    InRange]
  omega

/-- A read inside a byte-array device returns zero and delivers the cells. -/
theorem read_delivers_range {devices : List (Device σ)} {dev : Device σ}
    {cells : σ → Nat → Byte} (hdev : PagedFlash dev cells) {addr len : Nat}
    (hreg : OnlyCover devices dev addr len) (hlo : dev.base ≤ addr)
    (hhi : addr + len ≤ dev.base + dev.size) (hlen : 0 < len) (s : State σ) :
    (tlkStorageRead devices addr true len s).1 = 0 ∧
    (∀ i, i < len → (tlkStorageRead devices addr true len s).2.1 i = cells s.world (addr + i)) ∧
    cells (tlkStorageRead devices addr true len s).2.2.world = cells s.world := by
  obtain ⟨d, hd, hm⟩ := hdev.model
  have hfind := findDevice_of_only hreg (covers_of_range hlo hhi hdev.no_wrap)
  have hread : dev.read = some d.read := by
    unfold Device.pages? at hd
    split at hd
    · next hread _ _ _ =>
      obtain rfl := Option.some.inj hd
      exact hread
    · contradiction
  have hcall : tlkStorageRead devices addr true len s =
      ((d.read addr len s.world).1, (d.read addr len s.world).2.1,
        { s with world := (d.read addr len s.world).2.2 }) := by
    simp [tlkStorageRead, Nat.ne_of_gt hlen, hfind, hread]
  rw [hcall]
  exact ⟨hm.read_result addr len s.world hlo hhi, hm.read_data addr len s.world hlo hhi,
    hm.read_cells addr len s.world hlo hhi⟩

namespace StoreLayout

variable {c : FlashConfig} {devices : List (Device σ)} {dev : Device σ} {cells : σ → Nat → Byte}

theorem no_wrap (h : StoreLayout c devices dev cells) : c.tableEnd < 2 ^ 32 :=
  Nat.lt_of_le_of_lt h.end_le h.flash.no_wrap

/-- Where a range of a partition lies. -/
structure Located (devices : List (Device σ)) (dev : Device σ) (fa : FlashArea)
    (off len : Nat) : Prop where
  addr : areaAddr (some fa) off = fa.faOff + off
  lo : dev.base ≤ fa.faOff + off
  hi : fa.faOff + off + len ≤ dev.base + dev.size
  only : OnlyCover devices dev (fa.faOff + off) len

theorem located (h : StoreLayout c devices dev cells) {fa : FlashArea} (hfa : fa ∈ c.partitions)
    {off len : Nat} (hin : InRange fa off len) : Located devices dev fa off len := by
  obtain ⟨hlen, hfits⟩ := hin
  obtain ⟨hlo, hhi⟩ := partition_inside h.no_wrap hfa (by omega)
  have hbase := h.base_le
  have hend := h.end_le
  have hwrap := h.no_wrap
  refine ⟨u32_of_lt ?_, by omega, by omega, h.only _ _ (by omega) (by omega) hlen⟩
  simp only [Option.elim]
  omega

/-- What a call has to keep: it answers as the byte arrays do and leaves their contents in the
flash. -/
def Agrees (c : FlashConfig) (cells : σ → Nat → Byte) (r : Answer × State σ)
    (r' : Answer × Partitions) : Prop :=
  r.1 = r'.1 ∧ areaPlacement.Holds c.partitions (cells r.2.world) r'.2

section Calls

variable {s : State σ} {parts : Partitions} {fa : FlashArea} {off len : Nat}

theorem rangeIsValid_of_not_inRange (h : ¬ InRange fa off len) :
    flashAreaRangeIsValid (some fa) off len = false :=
  Bool.eq_false_iff.mpr fun hvalid => h ((rangeIsValid_iff fa off len).mp hvalid)

theorem read_agrees (h : StoreLayout c devices dev cells) (hfa : fa ∈ c.partitions)
    (hholds : areaPlacement.Holds c.partitions (cells s.world) parts) :
    Agrees c cells (FlashCall.answer devices s (.read (some fa) off true len))
      (parts.answer (.read (some fa) off true len)) := by
  by_cases hin : InRange fa off len
  · have hloc := h.located hfa hin
    obtain ⟨hresult, hdata, hcells⟩ :=
      read_delivers_range h.flash hloc.only hloc.lo hloc.hi hin.1 s
    simp only [Agrees, FlashCall.answer, flashAreaRead, (rangeIsValid_iff fa off len).mpr hin,
      hloc.addr, Partitions.answer, if_pos hin, Bool.not_true, Bool.or_self, Bool.false_eq_true,
      if_false, hresult, if_true, hcells]
    refine ⟨?_, hholds⟩
    rw [List.map_congr_left fun i hi => hdata i (List.mem_range.mp hi)]
    exact congrArg (Answer.mk 0) (hholds.range hfa hin.2)
  · simpa [Agrees, FlashCall.answer, flashAreaRead, rangeIsValid_of_not_inRange hin,
      Partitions.answer, hin] using hholds

theorem write_agrees (h : StoreLayout c devices dev cells) (hfa : fa ∈ c.partitions)
    (src : Nat → Byte) (hholds : areaPlacement.Holds c.partitions (cells s.world) parts) :
    Agrees c cells (FlashCall.answer devices s (.write (some fa) off (some src) len))
      (parts.answer (.write (some fa) off (some src) len)) := by
  by_cases hin : InRange fa off len
  · have hloc := h.located hfa hin
    obtain ⟨hresult, hcells⟩ :=
      write_replaces_range h.flash hloc.only hloc.lo hloc.hi hin.1 src s
    simp only [Agrees, FlashCall.answer, flashAreaWrite, (rangeIsValid_iff fa off len).mpr hin,
      hloc.addr, Partitions.answer, if_pos hin, Option.isNone_some, Bool.not_true, Bool.or_self,
      Bool.false_eq_true, if_false, hresult]
    refine ⟨trivial, ?_⟩
    rw [show cells _ = overwrite (cells s.world) (fa.faOff + off) len src from funext hcells]
    exact hholds.overwrite (partitions_apart h.no_wrap) hfa hin.2 src
  · simpa [Agrees, FlashCall.answer, flashAreaWrite, rangeIsValid_of_not_inRange hin,
      Partitions.answer, hin] using hholds

theorem erase_agrees (h : StoreLayout c devices dev cells) (hfa : fa ∈ c.partitions)
    (hholds : areaPlacement.Holds c.partitions (cells s.world) parts) :
    Agrees c cells (FlashCall.answer devices s (.erase (some fa) off len))
      (parts.answer (.erase (some fa) off len)) := by
  by_cases hin : InRange fa off len
  · have hloc := h.located hfa hin
    have hresult := (h.flash.erase_spec hloc.only hloc.lo hloc.hi hin.1 s).1
    obtain ⟨hinside, houtside⟩ := erase_erases_of_ones (.inl h.flash) hloc.only hloc.lo
      hloc.hi hin.1 s (h.clean none)
    simp only [Agrees, FlashCall.answer, flashAreaErase, (rangeIsValid_iff fa off len).mpr hin,
      hloc.addr, Partitions.answer, if_pos hin, Bool.not_true, Bool.false_eq_true, if_false,
      hresult]
    refine ⟨trivial, ?_⟩
    have herased : ∀ i, i < len → cells _ (fa.faOff + off + i) =
        (fun _ => flashAreaErasedVal (some fa)) i :=
      fun i hi => (hinside _ (by omega) (by omega)).trans (h.clean _)
    rw [← overwrite_eq_of_agree herased houtside]
    exact hholds.overwrite (partitions_apart h.no_wrap) hfa hin.2 _
  · simpa [Agrees, FlashCall.answer, flashAreaErase, rangeIsValid_of_not_inRange hin,
      Partitions.answer, hin] using hholds

end Calls

theorem answer_agrees (h : StoreLayout c devices dev cells) (s : State σ) (parts : Partitions)
    (call : FlashCall) (hcall : ∀ fa, call.area = some fa → fa ∈ c.partitions)
    (hholds : areaPlacement.Holds c.partitions (cells s.world) parts) :
    Agrees c cells (call.answer devices s) (parts.answer call) := by
  -- without an area or a buffer a call is refused before anything is looked at
  have hrefused : Agrees c cells (⟨-1, []⟩, s) (⟨-1, []⟩, parts) := ⟨rfl, hholds⟩
  cases call with
  | read fa off dst len =>
    rcases fa with _ | fa <;> rcases dst with _ | _
    · exact hrefused
    · exact hrefused
    · exact hrefused
    · exact h.read_agrees (hcall fa rfl) hholds
  | write fa off src len =>
    rcases fa with _ | fa <;> rcases src with _ | src
    · exact hrefused
    · exact hrefused
    · exact hrefused
    · exact h.write_agrees (hcall fa rfl) src hholds
  | erase fa off len =>
    rcases fa with _ | fa
    · exact hrefused
    · exact h.erase_agrees (hcall fa rfl) hholds

end StoreLayout

/-- **The partitions are independent byte arrays.** Whatever sequence of reads, writes and erases,
with any arguments, is made on the areas of the table, every call answers as it would on byte
arrays that are the partitions' own, and the flash holds the arrays' contents at the end. -/
theorem flash_map_refines_byte_arrays {c : FlashConfig} {devices : List (Device σ)}
    {dev : Device σ} {cells : σ → Nat → Byte} (h : StoreLayout c devices dev cells)
    (calls : List FlashCall)
    (hcalls : ∀ call ∈ calls, ∀ fa, call.area = some fa → fa ∈ c.partitions) (s : State σ)
    (parts : Partitions) (hholds : areaPlacement.Holds c.partitions (cells s.world) parts) :
    (replies (FlashCall.answer devices) s calls).1 = (replies Partitions.answer parts calls).1 ∧
    areaPlacement.Holds c.partitions
      (cells (replies (FlashCall.answer devices) s calls).2.world)
      (replies Partitions.answer parts calls).2 := by
  have hstep : ∀ (s : State σ) (parts : Partitions) (call : FlashCall),
      areaPlacement.Holds c.partitions (cells s.world) parts →
      (∀ fa, call.area = some fa → fa ∈ c.partitions) →
      StoreLayout.Agrees c cells (call.answer devices s) (parts.answer call) :=
    fun s parts call hholds hcall => h.answer_agrees s parts call hcall hholds
  exact replies_simulate hstep hcalls hholds

/-- The flash of the chip, two megabytes under the default partition table. -/
theorem socFlash0_layout : StoreLayout defaultConfig [socFlash0 serialFlash 0x20000000 0x200000]
    (socFlash0 serialFlash 0x20000000 0x200000) fun s => s.chip.cells where
  flash := socFlash0_paged serialFlash_erases (by decide) (by decide) (by decide)
  clean _ := rfl
  base_le := by decide
  end_le := by decide
  only _ _ _ _ _ := onlyCover_singleton _ _ _

/-- On a chip full of zeros: the scratch area is erased but for its first and last byte, two bytes
are written across a page and read back with their neighbours, and a range that runs out of the
area is refused. -/
theorem flash_map_refines_byte_arrays_scratch :
    let scratch := some defaultConfig.imageScratch
    (replies (FlashCall.answer [socFlash0 serialFlash 0x20000000 0x200000])
      ⟨⟨true, false, fun _ => 0⟩, fun _ _ => 7⟩
      [.erase scratch 1 0x3FFE, .write scratch 4095 (some fun i => UInt8.ofNat (5 + i)) 2,
        .read scratch 4094 true 4, .read scratch 0x3FFE true 2, .erase scratch 0x3FFF 2]).1 =
      [⟨0, []⟩, ⟨0, []⟩, ⟨0, [0xFF, 5, 6, 0xFF]⟩, ⟨0, [0xFF, 0]⟩, ⟨-1, []⟩] := by
  intro scratch
  refine (flash_map_refines_byte_arrays socFlash0_layout _ ?_ _ (fun _ _ => 0)
    fun _ _ _ _ => rfl).1.trans ?_
  · intro call hcall fa hfa
    simp only [List.mem_cons, List.not_mem_nil, or_false] at hcall
    rcases hcall with rfl | rfl | rfl | rfl | rfl <;>
      · obtain rfl := Option.some.inj hfa
        simp [FlashConfig.partitions]
  · decide +kernel

end UniSdk.Mcuboot
