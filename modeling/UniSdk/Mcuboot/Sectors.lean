import UniSdk.Library.Spans
import UniSdk.Mcuboot.FlashMap
import Mathlib.Logic.Function.Basic

/-!
# The sectors of a flash area

`flash_area_get_sectors` fills the caller's array, `flash_area_get_sector` answers for one offset.
The array is what the call has written to it: entries that are `none` still hold what the caller
left there.
-/

namespace UniSdk.Mcuboot

open Library.Spans Library.Words

/-- `struct flash_sector`. -/
structure FlashSector where
  fsOff : Nat
  fsSize : Nat
  deriving DecidableEq

/-- `flash_area_open`, for a destination that is not null. -/
def flashAreaOpen (c : FlashConfig) (id : Nat) : Option FlashArea :=
  c.partitions.find? fun fa => fa.faId = id

/-- The entry the loop stores at index `i`. -/
def sectorAt (i : Nat) : FlashSector where
  fsOff := u32 (i * FLASH_SECTOR_SIZE)
  fsSize := FLASH_SECTOR_SIZE

/-- The loop, which ends at the sector count or at the capacity. -/
def writeSectors (sectorCount max : Nat) : Nat → Option FlashSector :=
  (List.range (min sectorCount max)).foldl
    (fun sectors i => Function.update sectors i (some (sectorAt i))) fun _ => none

/-- `flash_area_get_sectors`: the result, what is left in `*count`, and the array. A null `count` is
`none`, a null `sectors` is `false`. -/
def flashAreaGetSectors (c : FlashConfig) (faId : Int) (count : Option Nat) (sectors : Bool) :
    Int × Option Nat × (Nat → Option FlashSector) :=
  match count, sectors, flashAreaOpen c (faId % 256).toNat with
  | some max, true, some fa =>
    let sectorCount := fa.faSize / FLASH_SECTOR_SIZE
    (0, some sectorCount, writeSectors sectorCount max)
  | _, _, _ => (-1, count, fun _ => none)

/-- `flash_area_get_sector`: the result and what is written to `*sector`, where that is not null. -/
def flashAreaGetSector (fa : Option FlashArea) (off : Nat) (sector : Bool) :
    Int × Option FlashSector :=
  match fa, sector with
  | some fa, true =>
    if fa.faSize ≤ off then (-1, none)
    else (0, some ⟨u32 (off / FLASH_SECTOR_SIZE * FLASH_SECTOR_SIZE), FLASH_SECTOR_SIZE⟩)
  | _, _ => (-1, none)

namespace FlashSector

def Contains (s : FlashSector) (off : Nat) : Prop := s.fsOff ≤ off ∧ off < s.fsOff + s.fsSize

end FlashSector

/-- What a caller expects of a list of sectors: the reported entries are there, they tile the
area, each offset has the one that contains it, and the rest of the array is untouched. -/
structure SectorsComplete (fa : FlashArea) (capacity count : Nat)
    (sectors : Nat → Option FlashSector) (entries : List FlashSector) : Prop where
  written : (List.range count).map sectors = entries.map some
  tiles : Tiles (fun s : FlashSector => (s.fsOff : Int)) (fun s => (s.fsSize : Int)) 0 fa.faSize
    entries
  found : ∀ off < fa.faSize, ∃ s ∈ entries, flashAreaGetSector (some fa) off true = (0, some s) ∧
    s.Contains off ∧ ∀ t ∈ entries, t.Contains off → t = s
  inside : ∀ i, capacity ≤ i → sectors i = none

theorem foldl_update (n : Nat) (f : Nat → FlashSector) :
    (List.range n).foldl (fun sectors i => Function.update sectors i (some (f i)))
      (fun _ => none) = fun i => if i < n then some (f i) else none := by
  induction n with
  | zero => rfl
  | succ n ih =>
    rw [List.range_succ, List.foldl_append, ih, List.foldl_cons, List.foldl_nil]
    funext i
    by_cases hi : i = n
    · subst hi
      rw [Function.update_self, if_pos (Nat.lt_succ_self _)]
    · rw [Function.update_of_ne hi]
      by_cases hlt : i < n
      · rw [if_pos hlt, if_pos (Nat.lt_succ_of_lt hlt)]
      · rw [if_neg hlt, if_neg (by omega)]

theorem writeSectors_apply (sectorCount max i : Nat) : writeSectors sectorCount max i =
    if i < sectorCount ∧ i < max then some (sectorAt i) else none := by
  rw [writeSectors, foldl_update]
  simp only [Nat.lt_min]

theorem sectorAt_off {i size : Nat} (hsize : size < 2 ^ 32) (hi : i < size / FLASH_SECTOR_SIZE) :
    (sectorAt i).fsOff = i * FLASH_SECTOR_SIZE := by
  have hmul := Nat.div_mul_le_self size FLASH_SECTOR_SIZE
  have hlt := Nat.mul_lt_mul_of_pos_right hi (show 0 < FLASH_SECTOR_SIZE by decide)
  exact u32_of_lt (by omega)

theorem getSectors_of_open {c : FlashConfig} {faId : Int} {fa : FlashArea}
    (hopen : flashAreaOpen c (faId % 256).toNat = some fa) (capacity : Nat) :
    flashAreaGetSectors c faId (some capacity) true =
      (0, some (fa.faSize / FLASH_SECTOR_SIZE),
        writeSectors (fa.faSize / FLASH_SECTOR_SIZE) capacity) := by
  unfold flashAreaGetSectors
  rw [hopen]

/-- The sizes of the partition table are whole sectors. -/
theorem sectors_of_open {c : FlashConfig} {id : Nat} {fa : FlashArea}
    (hopen : flashAreaOpen c id = some fa) : fa.faSize % FLASH_SECTOR_SIZE = 0 := by
  have hmem := List.mem_of_find?_eq_some hopen
  simp only [FlashConfig.partitions, List.mem_cons, List.not_mem_nil, or_false] at hmem
  rcases hmem with rfl | rfl | rfl | rfl
  · exact c.slot_sectors
  · exact c.slot_sectors
  · exact c.scratch_sectors
  · exact c.bootloader_sectors

theorem contains_sectorAt {size i off : Nat} (hsize : size < 2 ^ 32)
    (hi : i < size / FLASH_SECTOR_SIZE) :
    (sectorAt i).Contains off ↔ i = off / FLASH_SECTOR_SIZE := by
  unfold FlashSector.Contains
  rw [sectorAt_off hsize hi]
  show i * FLASH_SECTOR_SIZE ≤ off ∧ off < i * FLASH_SECTOR_SIZE + FLASH_SECTOR_SIZE ↔ _
  rw [FLASH_SECTOR_SIZE]
  omega

/-- An array with room for every sector gets them all. -/
theorem complete_of_capacity {fa : FlashArea} {capacity : Nat} (hsize : fa.faSize < 2 ^ 32)
    (hsectors : fa.faSize % FLASH_SECTOR_SIZE = 0)
    (hroom : fa.faSize / FLASH_SECTOR_SIZE ≤ capacity) :
    SectorsComplete fa capacity (fa.faSize / FLASH_SECTOR_SIZE)
      (writeSectors (fa.faSize / FLASH_SECTOR_SIZE) capacity)
      ((List.range (fa.faSize / FLASH_SECTOR_SIZE)).map sectorAt) where
  written := by
    rw [List.map_map]
    apply List.map_congr_left
    intro i hi
    have hlt := List.mem_range.mp hi
    rw [writeSectors_apply, if_pos ⟨hlt, hlt.trans_le hroom⟩]
    rfl
  tiles := by
    have hend : ((fa.faSize : Nat) : Int) =
        0 + ((fa.faSize / FLASH_SECTOR_SIZE : Nat) : Int) * (FLASH_SECTOR_SIZE : Nat) := by
      rw [zero_add, ← Nat.cast_mul, Nat.div_mul_cancel (Nat.dvd_of_mod_eq_zero hsectors)]
    rw [hend]
    apply Tiles.map_range
    intro i hi
    refine ⟨?_, rfl⟩
    rw [sectorAt_off hsize hi, zero_add, Nat.cast_mul]
  found := by
    intro off hoff
    have hindex : off / FLASH_SECTOR_SIZE < fa.faSize / FLASH_SECTOR_SIZE :=
      Nat.div_lt_div_of_lt_of_dvd (Nat.dvd_of_mod_eq_zero hsectors) hoff
    refine ⟨sectorAt (off / FLASH_SECTOR_SIZE), ?_, ?_, ?_, ?_⟩
    · exact List.mem_map_of_mem (List.mem_range.mpr hindex)
    · exact if_neg (Nat.not_le.mpr hoff)
    · exact (contains_sectorAt hsize hindex).mpr rfl
    · intro t ht hcontains
      obtain ⟨j, hj, rfl⟩ := List.mem_map.mp ht
      rw [(contains_sectorAt hsize (List.mem_range.mp hj)).mp hcontains]
  inside := by
    intro i hi
    rw [writeSectors_apply, if_neg (fun h => absurd h.2 (Nat.not_lt.mpr hi))]

/-- A count that was met only in part leaves the entry at the capacity unwritten. -/
theorem capacity_of_written {count capacity : Nat} {entries : List FlashSector}
    (h : (List.range count).map (writeSectors count capacity) = entries.map some) :
    count ≤ capacity := by
  by_contra hlt
  have hcap : capacity < count := Nat.lt_of_not_le hlt
  have hat := congrArg (·[capacity]?) h
  simp only [List.getElem?_map, List.getElem?_range hcap, Option.map_some,
    writeSectors_apply] at hat
  rw [if_neg (fun h => absurd h.2 (Nat.lt_irrefl _))] at hat
  cases he : entries[capacity]? with
  | none => rw [he] at hat; cases hat
  | some s => rw [he] at hat; cases hat

/-- A successful query is complete exactly when the caller's array has room for every sector; the
count it reports does not depend on that room. -/
theorem flashAreaGetSectors_complete (c : FlashConfig) (faId : Int) (fa : FlashArea)
    (capacity : Nat) (hopen : flashAreaOpen c (faId % 256).toNat = some fa)
    (hsize : fa.faSize < 2 ^ 32) :
    (∀ count sectors, flashAreaGetSectors c faId (some capacity) true = (0, some count, sectors) →
      ∃ entries, SectorsComplete fa capacity count sectors entries) ↔
      fa.faSize / FLASH_SECTOR_SIZE ≤ capacity := by
  rw [getSectors_of_open hopen]
  constructor
  · intro h
    obtain ⟨entries, hcomplete⟩ := h _ _ rfl
    exact capacity_of_written hcomplete.written
  · intro hroom count sectors heq
    simp only [Prod.mk.injEq, Option.some.injEq, true_and] at heq
    obtain ⟨rfl, rfl⟩ := heq
    exact ⟨_, complete_of_capacity hsize (sectors_of_open hopen) hroom⟩

/-- The bootloader partition of the default configuration, asked for with room for one sector more
than it has. -/
theorem flashAreaGetSectors_complete_default :
    (∀ count sectors,
      flashAreaGetSectors defaultConfig 3 (some 145) true = (0, some count, sectors) →
      ∃ entries, SectorsComplete defaultConfig.bootloader 145 count sectors entries) ↔
      defaultConfig.bootloader.faSize / FLASH_SECTOR_SIZE ≤ 145 :=
  flashAreaGetSectors_complete defaultConfig 3 defaultConfig.bootloader 145 (by decide) (by decide)

/-- Asked for one sector of the bootloader partition, the query succeeds and reports sectors that
it has not written. -/
theorem flashAreaGetSectors_short :
    ∃ count sectors,
      flashAreaGetSectors defaultConfig 3 (some 1) true = (0, some count, sectors) ∧
        1 < count ∧ sectors 1 = none ∧
        ¬ ∃ entries, SectorsComplete defaultConfig.bootloader 1 count sectors entries := by
  have hopen : flashAreaOpen defaultConfig ((3 : Int) % 256).toNat =
      some defaultConfig.bootloader := by decide
  refine ⟨_, _, getSectors_of_open hopen 1, by decide, by decide, ?_⟩
  intro h
  obtain ⟨entries, hcomplete⟩ := h
  exact absurd (capacity_of_written hcomplete.written) (by decide)

end UniSdk.Mcuboot
