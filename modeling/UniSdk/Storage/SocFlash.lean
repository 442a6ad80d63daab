import Mathlib.Data.List.Nodup
import UniSdk.Storage.Write

/-!
# The flash of the chip as a storage device

`soc_flash.c`: the three callbacks of `soc_flash_0` over the serial flash. The chip and the MSPI
driver that talks to it are parameters: `FlashChip` is what a transfer does to the chip. A write
is cut at the 256-byte program pages, inside which a program command wraps. On a chip that
programs by AND the pieces together program the range, and the device then has the pages that
the storage layer asks for.
-/

namespace UniSdk.Storage

open Library.Cells Library.Aligned Library.Words

def SOC_FLASH_PAGE_SIZE : Nat := 4096
def SOC_FLASH_CLEAN_BYTE : Byte := 0xFF
def SOC_FLASH_MAX_WRITE_BLOCK : Nat := 256
def SOC_FLASH_BUSY_CNT_MAX : Nat := 10000000

def SOC_FLASH_DREAD_CMD : Nat := 0x3B4097A9
def SOC_FLASH_READ_STATUS_CMD_LOWBYTE : Nat := 0x05002080
def SOC_FLASH_WRITE_CMD : Nat := 0x020010A8
def SOC_FLASH_SECT_ERASE_CMD : Nat := 0x200070A8
def SOC_FLASH_WRITE_ENABLE_CMD : Nat := 0x06007080

/-- What the transfers of the MSPI driver do to a chip in state `κ`. Each takes the command word
and the address first. -/
structure FlashChip (κ : Type) where
  send : Nat → Nat → κ → κ
  status : Nat → Nat → κ → Byte × κ
  read : Nat → Nat → Nat → κ → (Nat → Byte) × κ
  write : Nat → Nat → (Nat → Byte) → Nat → κ → κ

/-- The bit `BRPE` of the processor's `MMISC_CTL`, and the chip. -/
structure FlashBus (κ : Type) where
  brpe : Bool
  chip : κ

variable {κ : Type}

/-- `tlk_storage_flash_clear_and_get_brpe` -/
def clearAndGetBrpe (s : FlashBus κ) : Bool × FlashBus κ := (s.brpe, { s with brpe := false })

/-- `tlk_storage_flash_restore_brpe` -/
def restoreBrpe (saved : Bool) (s : FlashBus κ) : FlashBus κ :=
  if saved then { s with brpe := true } else { s with brpe := false }

section Transfers

variable (chip : FlashChip κ)

/-- `tlk_storage_flash_is_busy`: the lowest status bit. -/
def flashIsBusy (addr cmd : Nat) (k : κ) : Bool × κ :=
  let r := chip.status cmd addr k
  (r.1 &&& 1 != 0, r.2)

/-- `tlk_storage_flash_wait_done`; the first argument is the number of polls left. -/
def flashWaitDone (addr cmd : Nat) : Nat → κ → κ
  | 0, k => k
  | polls + 1, k =>
    let r := flashIsBusy chip addr cmd k
    if r.1 then flashWaitDone addr cmd polls r.2 else r.2

/-- `tlk_storage_flash_mspi_write` -/
def flashMspiWrite (cmd addr : Nat) (data : Nat → Byte) (dataLen wEnCmd busyCmd : Nat) (k : κ) :
    κ :=
  let k := if wEnCmd ≠ 0 then chip.send wEnCmd addr k else k
  let k := chip.write cmd addr data dataLen k
  if busyCmd ≠ 0 then flashWaitDone chip addr busyCmd SOC_FLASH_BUSY_CNT_MAX k else k

/-- `tlk_storage_flash_read` -/
def tlkStorageFlashRead : ReadCallback (FlashBus κ) := fun addr len s =>
  let b := clearAndGetBrpe s
  let r := chip.read SOC_FLASH_DREAD_CMD addr len b.2.chip
  (0, r.1, restoreBrpe b.1 { b.2 with chip := r.2 })

/-- `tlk_storage_flash_erase`: the length is not looked at. -/
def tlkStorageFlashErase : EraseCallback (FlashBus κ) := fun addr _ s =>
  let b := clearAndGetBrpe s
  let k := flashMspiWrite chip SOC_FLASH_SECT_ERASE_CMD addr (fun _ => 0) 0
    SOC_FLASH_WRITE_ENABLE_CMD SOC_FLASH_READ_STATUS_CMD_LOWBYTE b.2.chip
  (0, restoreBrpe b.1 { b.2 with chip := k })

/-- One turn of the loop of `tlk_storage_flash_write`. -/
def flashProgram (addr : Nat) (buf : Nat → Byte) (wrLen : Nat) (s : FlashBus κ) : FlashBus κ :=
  let b := clearAndGetBrpe s
  let k := flashMspiWrite chip SOC_FLASH_WRITE_CMD addr buf wrLen SOC_FLASH_WRITE_ENABLE_CMD
    SOC_FLASH_READ_STATUS_CMD_LOWBYTE b.2.chip
  restoreBrpe b.1 { b.2 with chip := k }

/-- `tlk_storage_flash_write` -/
def tlkStorageFlashWrite (addr : Nat) (buf : Nat → Byte) (len : Nat) (s : FlashBus κ) :
    Int × FlashBus κ :=
  if len = 0 then (0, s)
  else
    let wrLen := min len (SOC_FLASH_MAX_WRITE_BLOCK - addr % SOC_FLASH_MAX_WRITE_BLOCK)
    tlkStorageFlashWrite (u32 (addr + wrLen)) (fun i => buf (wrLen + i)) (len - wrLen)
      (flashProgram chip addr buf wrLen s)
termination_by len
decreasing_by
  simp only [SOC_FLASH_MAX_WRITE_BLOCK]
  omega

end Transfers

/-! ### The commands of a write -/

/-- One page program command. -/
structure ProgramCommand where
  addr : Nat
  data : Nat → Byte
  len : Nat

/-- The bytes that a command carries, each with its address. -/
def ProgramCommand.carried (c : ProgramCommand) : List (Nat × Byte) :=
  (List.range c.len).map fun i => (c.addr + i, c.data i)

/-- The command is not empty and does not cross a program page. -/
structure ProgramCommand.OnPage (c : ProgramCommand) : Prop where
  nonempty : 0 < c.len
  inside : c.addr % SOC_FLASH_MAX_WRITE_BLOCK + c.len ≤ SOC_FLASH_MAX_WRITE_BLOCK

/-- The turn of the write loop that issues the command. -/
def FlashChip.issue (chip : FlashChip κ) (s : FlashBus κ) (c : ProgramCommand) : FlashBus κ :=
  flashProgram chip c.addr c.data c.len s

/-- The bytes of a request, each with its address; addresses wrap. -/
def requested (addr : Nat) (buf : Nat → Byte) (len : Nat) : List (Nat × Byte) :=
  (List.range len).map fun i => (u32 (addr + i), buf i)

theorem requested_append (addr : Nat) (buf : Nat → Byte) (n m : Nat) :
    requested addr buf (n + m) =
      requested addr buf n ++ requested (u32 (addr + n)) (fun i => buf (n + i)) m := by
  unfold requested
  rw [List.range_add, List.map_append, List.map_map]
  congr 1
  refine List.map_congr_left fun i _ => Prod.ext ?_ rfl
  change u32 (addr + (n + i)) = u32 (u32 (addr + n) + i)
  unfold u32
  omega

/-- A piece that stays on its program page does not wrap. -/
theorem carried_eq_requested {c : ProgramCommand} (haddr : c.addr < 2 ^ 32) (h : c.OnPage) :
    c.carried = requested c.addr c.data c.len := by
  have hin := h.inside
  refine List.map_congr_left fun i hi => Prod.ext ?_ rfl
  have hlt : i < c.len := List.mem_range.mp hi
  unfold SOC_FLASH_MAX_WRITE_BLOCK at hin
  exact (u32_of_lt (by omega)).symm

/-- One turn of the write: the first piece, and the write of what is left. -/
theorem flashWrite_turn {len : Nat} (hl : len ≠ 0) (addr : Nat) (buf : Nat → Byte) :
    ∃ n, ProgramCommand.OnPage ⟨addr, buf, n⟩ ∧ n ≤ len ∧
      ∀ {κ : Type} (chip : FlashChip κ) (s : FlashBus κ),
        tlkStorageFlashWrite chip addr buf len s =
          tlkStorageFlashWrite chip (u32 (addr + n)) (fun i => buf (n + i)) (len - n)
            (chip.issue s ⟨addr, buf, n⟩) := by
  obtain ⟨hn, hpage, hle⟩ :=
    pageLen_bounds addr (show 0 < SOC_FLASH_MAX_WRITE_BLOCK by decide) hl
  refine ⟨_, ⟨hn, hpage⟩, hle, fun chip s => ?_⟩
  rw [tlkStorageFlashWrite, if_neg hl]
  rfl

/-- The write sends some commands, whatever the chip, one after the other. -/
theorem flashWrite_commands : ∀ (len addr : Nat) (buf : Nat → Byte), addr < 2 ^ 32 →
    ∃ commands : List ProgramCommand,
      (∀ c ∈ commands, c.OnPage) ∧
      commands.flatMap ProgramCommand.carried = requested addr buf len ∧
      ∀ {κ : Type} (chip : FlashChip κ) (s : FlashBus κ),
        tlkStorageFlashWrite chip addr buf len s = (0, commands.foldl chip.issue s) := by
  intro len
  induction len using Nat.strong_induction_on with
  | h len ih =>
    intro addr buf haddr
    by_cases hl : len = 0
    · refine ⟨[], fun c hc => absurd hc List.not_mem_nil, ?_, fun chip s => ?_⟩
      · rw [hl]
        rfl
      · rw [tlkStorageFlashWrite, if_pos hl]
        rfl
    · obtain ⟨n, hfirst, hle, hturn⟩ := flashWrite_turn hl addr buf
      obtain ⟨rest, hon, hcarried, hrun⟩ := ih (len - n)
        (Nat.sub_lt (Nat.pos_of_ne_zero hl) hfirst.nonempty) (u32 (addr + n))
        (fun i => buf (n + i)) (Nat.mod_lt _ (by decide))
      refine ⟨⟨addr, buf, n⟩ :: rest, List.forall_mem_cons.mpr ⟨hfirst, hon⟩, ?_, fun chip s => ?_⟩
      · rw [List.flatMap_cons, carried_eq_requested haddr hfirst, hcarried, ← requested_append,
          Nat.add_sub_cancel' hle]
      · rw [hturn chip s, hrun chip, List.foldl_cons]

/-! ### A chip that programs by AND -/

/-- Where byte `i` of a program command goes: the address wraps inside its program page. -/
def programAddr (addr i : Nat) : Nat :=
  addr - addr % SOC_FLASH_MAX_WRITE_BLOCK +
    (addr % SOC_FLASH_MAX_WRITE_BLOCK + i) % SOC_FLASH_MAX_WRITE_BLOCK

/-- A program command: every byte is ANDed into its cell. -/
def pageProgram (mem : Nat → Byte) (addr : Nat) (data : Nat → Byte) (len : Nat) : Nat → Byte :=
  combine (· &&& ·) mem ((List.range len).map fun i => (programAddr addr i, data i))

/-- `cells` are the cells of a chip that programs by AND inside one program page, when writing
has been enabled. -/
structure ProgramsByAnd (chip : FlashChip κ) (cells : κ → Nat → Byte) : Prop where
  program : ∀ addr data len k,
    cells (chip.write SOC_FLASH_WRITE_CMD addr data len
      (chip.send SOC_FLASH_WRITE_ENABLE_CMD addr k)) = pageProgram (cells k) addr data len
  status : ∀ cmd addr k, cells (chip.status cmd addr k).2 = cells k

/-- Inside its program page a command does not wrap. -/
theorem pageProgram_onPage (mem : Nat → Byte) {c : ProgramCommand} (h : c.OnPage) :
    pageProgram mem c.addr c.data c.len = combine (· &&& ·) mem c.carried := by
  have hin := h.inside
  refine congrArg (combine (· &&& ·) mem) (List.map_congr_left fun i hi => Prod.ext ?_ rfl)
  have hlt : i < c.len := List.mem_range.mp hi
  have hmod := Nat.mod_le c.addr SOC_FLASH_MAX_WRITE_BLOCK
  change programAddr c.addr i = c.addr + i
  have hlow : c.addr % SOC_FLASH_MAX_WRITE_BLOCK + i < SOC_FLASH_MAX_WRITE_BLOCK := by omega
  rw [programAddr, Nat.mod_eq_of_lt hlow]
  omega

section ProgramsByAnd

variable {chip : FlashChip κ} {cells : κ → Nat → Byte}

theorem restoreBrpe_chip (saved : Bool) (s : FlashBus κ) : (restoreBrpe saved s).chip = s.chip := by
  unfold restoreBrpe
  split <;> rfl

theorem flashWaitDone_cells (hstatus : ∀ cmd addr k, cells (chip.status cmd addr k).2 = cells k)
    (addr cmd : Nat) :
    ∀ (polls : Nat) (k : κ), cells (flashWaitDone chip addr cmd polls k) = cells k := by
  intro polls
  induction polls with
  | zero => exact fun _ => rfl
  | succ polls ih =>
    intro k
    rw [flashWaitDone, apply_ite cells, ih]
    exact (ite_self _).trans (hstatus cmd addr k)

/-- A write transfer leaves what the command itself does after a write enable. -/
theorem flashMspiWrite_cells (hstatus : ∀ cmd addr k, cells (chip.status cmd addr k).2 = cells k)
    (cmd addr : Nat) (data : Nat → Byte) (len : Nat) (k : κ) :
    cells (flashMspiWrite chip cmd addr data len SOC_FLASH_WRITE_ENABLE_CMD
      SOC_FLASH_READ_STATUS_CMD_LOWBYTE k) =
    cells (chip.write cmd addr data len (chip.send SOC_FLASH_WRITE_ENABLE_CMD addr k)) := by
  unfold flashMspiWrite
  rw [if_pos (show SOC_FLASH_WRITE_ENABLE_CMD ≠ 0 by decide),
    if_pos (show SOC_FLASH_READ_STATUS_CMD_LOWBYTE ≠ 0 by decide)]
  exact flashWaitDone_cells hstatus addr _ _ _

theorem ProgramsByAnd.issue_cells (hchip : ProgramsByAnd chip cells) {c : ProgramCommand}
    (h : c.OnPage) (s : FlashBus κ) :
    cells (chip.issue s c).chip = combine (· &&& ·) (cells s.chip) c.carried := by
  rw [FlashChip.issue, flashProgram]
  dsimp only
  rw [restoreBrpe_chip]
  dsimp only [clearAndGetBrpe]
  rw [flashMspiWrite_cells hchip.status, hchip.program, pageProgram_onPage _ h]

theorem ProgramsByAnd.issue_all_cells (hchip : ProgramsByAnd chip cells) :
    ∀ (commands : List ProgramCommand) (s : FlashBus κ), (∀ c ∈ commands, c.OnPage) →
      cells (commands.foldl chip.issue s).chip =
        combine (· &&& ·) (cells s.chip) (commands.flatMap ProgramCommand.carried) := by
  intro commands
  induction commands with
  | nil => exact fun _ _ => rfl
  | cons c commands ih =>
    intro s hon
    rw [List.foldl_cons, ih _ fun c hc => hon c (List.mem_cons_of_mem _ hc),
      hchip.issue_cells (hon c List.mem_cons_self), List.flatMap_cons, combine_append]

end ProgramsByAnd

/-! ### The bytes of a request, as a range -/

/-- How far the address `j` lies past `addr`; addresses wrap. -/
def offset (addr j : Nat) : Nat := u32 (j + (2 ^ 32 - addr))

theorem mem_requested {addr len j : Nat} (haddr : addr < 2 ^ 32) (hlen : len < 2 ^ 32)
    (buf : Nat → Byte) :
    j ∈ (requested addr buf len).map Prod.fst ↔ j < 2 ^ 32 ∧ offset addr j < len := by
  rw [requested, List.map_map, List.mem_map]
  constructor
  · rintro ⟨i, hi, rfl⟩
    have hlt : i < len := List.mem_range.mp hi
    change u32 (addr + i) < 2 ^ 32 ∧ offset addr (u32 (addr + i)) < len
    unfold offset u32
    omega
  · rintro ⟨hj, hoff⟩
    refine ⟨offset addr j, List.mem_range.mpr hoff, ?_⟩
    change u32 (addr + offset addr j) = j
    unfold offset u32
    omega

/-- No address is requested twice. -/
theorem requested_nodup {addr len : Nat} (hlen : len < 2 ^ 32) (buf : Nat → Byte) :
    ((requested addr buf len).map Prod.fst).Nodup := by
  rw [requested, List.map_map]
  refine List.Nodup.map_on (fun i hi k hk heq => ?_) List.nodup_range
  have hi' := List.mem_range.mp hi
  have hk' := List.mem_range.mp hk
  change u32 (addr + i) = u32 (addr + k) at heq
  unfold u32 at heq
  omega

theorem combine_requested {addr len : Nat} (haddr : addr < 2 ^ 32) (hlen : len < 2 ^ 32)
    (mem buf : Nat → Byte) (j : Nat) :
    combine (· &&& ·) mem (requested addr buf len) j =
      if j < 2 ^ 32 ∧ offset addr j < len then mem j &&& buf (offset addr j) else mem j := by
  by_cases hj : j < 2 ^ 32 ∧ offset addr j < len
  · have hmem : (j, buf (offset addr j)) ∈ requested addr buf len := by
      refine List.mem_map.mpr ⟨offset addr j, List.mem_range.mpr hj.2, Prod.ext ?_ rfl⟩
      change u32 (addr + offset addr j) = j
      unfold offset u32
      omega
    rw [if_pos hj]
    exact combine_of_mem _ (requested_nodup hlen buf) hmem mem
  · rw [if_neg hj]
    exact combine_of_not_mem _ (fun h => hj ((mem_requested haddr hlen buf).mp h)) mem

/-- Commands that carry the bytes of the request program the range. -/
theorem ProgramsByAnd.cells_of_carried {chip : FlashChip κ} {cells : κ → Nat → Byte}
    (hchip : ProgramsByAnd chip cells) {addr len : Nat} {buf : Nat → Byte} (haddr : addr < 2 ^ 32)
    (hlen : len < 2 ^ 32) {commands : List ProgramCommand} (hon : ∀ c ∈ commands, c.OnPage)
    (hcarried : commands.flatMap ProgramCommand.carried = requested addr buf len)
    (s : FlashBus κ) (j : Nat) :
    cells (commands.foldl chip.issue s).chip j =
      if j < 2 ^ 32 ∧ offset addr j < len then cells s.chip j &&& buf (offset addr j)
      else cells s.chip j := by
  rw [hchip.issue_all_cells commands s hon, hcarried, combine_requested haddr hlen]

/-- A flash write returns zero after finitely many page program commands, none empty and none
across a program page. What they carry, one after the other, is the bytes of the request, each
once and at its address; on a chip that programs by AND the range becomes the old contents AND
the data and the rest stays. -/
theorem flash_write_linear {addr len : Nat} (buf : Nat → Byte) (haddr : addr < 2 ^ 32)
    (hlen : len < 2 ^ 32) :
    ∃ commands : List ProgramCommand,
      (∀ c ∈ commands, c.OnPage) ∧
      commands.flatMap ProgramCommand.carried = requested addr buf len ∧
      ∀ {κ : Type} (chip : FlashChip κ) (s : FlashBus κ),
        tlkStorageFlashWrite chip addr buf len s = (0, commands.foldl chip.issue s) ∧
        ∀ cells, ProgramsByAnd chip cells →
          ∀ j, cells (tlkStorageFlashWrite chip addr buf len s).2.chip j =
            if j < 2 ^ 32 ∧ offset addr j < len then cells s.chip j &&& buf (offset addr j)
            else cells s.chip j := by
  obtain ⟨commands, hon, hcarried, hrun⟩ := flashWrite_commands len addr buf haddr
  refine ⟨commands, hon, hcarried, fun chip s => ⟨hrun chip s, ?_⟩⟩
  intro cells hchip j
  rw [hrun chip s]
  exact hchip.cells_of_carried haddr hlen hon hcarried s j

/-- A chip that obeys a program or an erase command only after a write enable. -/
structure SerialFlash where
  writeEnabled : Bool
  cells : Nat → Byte

def serialFlash : FlashChip SerialFlash where
  send cmd _ k := if cmd = SOC_FLASH_WRITE_ENABLE_CMD then { k with writeEnabled := true } else k
  status _ _ k := (0, k)
  read _ addr _ k := (fun i => k.cells (addr + i), k)
  write cmd addr data len k :=
    if k.writeEnabled then
      if cmd = SOC_FLASH_WRITE_CMD then ⟨false, pageProgram k.cells addr data len⟩
      else if cmd = SOC_FLASH_SECT_ERASE_CMD then
        ⟨false, overwrite k.cells (addr - addr % SOC_FLASH_PAGE_SIZE) SOC_FLASH_PAGE_SIZE
          fun _ => SOC_FLASH_CLEAN_BYTE⟩
      else k
    else k

theorem serialFlash_programs : ProgramsByAnd serialFlash SerialFlash.cells where
  program _ _ _ _ := rfl
  status _ _ _ := rfl

/-- Twenty bytes across a program page boundary, on an erased chip. -/
theorem flash_write_linear_across_pages :
    ∃ commands : List ProgramCommand,
      (∀ c ∈ commands, c.OnPage) ∧
      commands.flatMap ProgramCommand.carried = requested 250 UInt8.ofNat 20 ∧
      tlkStorageFlashWrite serialFlash 250 UInt8.ofNat 20 ⟨true, false, fun _ => 0xFF⟩ =
        (0, commands.foldl serialFlash.issue ⟨true, false, fun _ => 0xFF⟩) ∧
      ∀ j, (tlkStorageFlashWrite serialFlash 250 UInt8.ofNat 20
          ⟨true, false, fun _ => 0xFF⟩).2.chip.cells j =
        if j < 2 ^ 32 ∧ offset 250 j < 20 then 0xFF &&& UInt8.ofNat (offset 250 j) else 0xFF := by
  obtain ⟨commands, hon, hcarried, hrun⟩ :=
    @flash_write_linear 250 20 UInt8.ofNat (by decide) (by decide)
  obtain ⟨heq, hcells⟩ := hrun serialFlash ⟨true, false, fun _ => 0xFF⟩
  exact ⟨commands, hon, hcarried, heq, hcells SerialFlash.cells serialFlash_programs⟩

/-! ### The device -/

/-- A chip that also erases whole sectors and reads back its cells. -/
structure ErasesSectors (chip : FlashChip κ) (cells : κ → Nat → Byte) : Prop
    extends ProgramsByAnd chip cells where
  erase : ∀ addr data k,
    cells (chip.write SOC_FLASH_SECT_ERASE_CMD addr data 0
      (chip.send SOC_FLASH_WRITE_ENABLE_CMD addr k)) =
    overwrite (cells k) (addr - addr % SOC_FLASH_PAGE_SIZE) SOC_FLASH_PAGE_SIZE
      fun _ => SOC_FLASH_CLEAN_BYTE
  read_data : ∀ addr len k i, i < len →
    (chip.read SOC_FLASH_DREAD_CMD addr len k).1 i = cells k (addr + i)
  read_cells : ∀ addr len k, cells (chip.read SOC_FLASH_DREAD_CMD addr len k).2 = cells k

/-- There is such a chip. -/
theorem serialFlash_erases : ErasesSectors serialFlash SerialFlash.cells where
  toProgramsByAnd := serialFlash_programs
  erase _ _ _ := rfl
  read_data _ _ _ _ _ := rfl
  read_cells _ _ _ := rfl

/-- `soc_flash_0`. The base and the size come from the chip's configuration. -/
def socFlash0 (chip : FlashChip κ) (base size : Nat) : Device (FlashBus κ) where
  id := 0
  base := base
  size := size
  page := SOC_FLASH_PAGE_SIZE
  cleanByte := SOC_FLASH_CLEAN_BYTE
  read := some (tlkStorageFlashRead chip)
  erase := some (tlkStorageFlashErase chip)
  write := some (tlkStorageFlashWrite chip)
  hasBuffer := true

section Device

variable {chip : FlashChip κ} {cells : κ → Nat → Byte}

/-- Below the top of the address space a write is one AND over an interval. -/
theorem ProgramsByAnd.flashWrite_spec (hchip : ProgramsByAnd chip cells) {addr len : Nat}
    (buf : Nat → Byte) (hend : addr + len < 2 ^ 32) (s : FlashBus κ) :
    (tlkStorageFlashWrite chip addr buf len s).1 = 0 ∧
    cells (tlkStorageFlashWrite chip addr buf len s).2.chip =
      overwrite (cells s.chip) addr len fun i => cells s.chip (addr + i) &&& buf i := by
  obtain ⟨commands, hon, hcarried, hrun⟩ := flashWrite_commands len addr buf (by omega)
  rw [hrun chip s]
  refine ⟨rfl, funext fun j => ?_⟩
  rw [hchip.cells_of_carried (by omega) (by omega) hon hcarried s j]
  by_cases hj : addr ≤ j ∧ j < addr + len
  · have hoff : offset addr j = j - addr := by
      unfold offset u32
      omega
    rw [overwrite_inside _ _ hj.1 hj.2, hoff, if_pos ⟨by omega, by omega⟩,
      Nat.add_sub_cancel' hj.1]
  · rw [overwrite_outside _ _ (by omega)]
    refine if_neg fun h => ?_
    unfold offset u32 at h
    omega

theorem ErasesSectors.flashErase_spec (hchip : ErasesSectors chip cells) {addr : Nat}
    (haligned : addr % SOC_FLASH_PAGE_SIZE = 0) (len : Nat) (s : FlashBus κ) :
    cells (tlkStorageFlashErase chip addr len s).2.chip =
      overwrite (cells s.chip) addr SOC_FLASH_PAGE_SIZE fun _ => SOC_FLASH_CLEAN_BYTE := by
  rw [tlkStorageFlashErase]
  dsimp only
  rw [restoreBrpe_chip]
  dsimp only [clearAndGetBrpe]
  rw [flashMspiWrite_cells hchip.status, hchip.erase, haligned, Nat.sub_zero]

theorem ErasesSectors.flashRead_cells (hchip : ErasesSectors chip cells) (addr len : Nat)
    (s : FlashBus κ) : cells (tlkStorageFlashRead chip addr len s).2.2.chip = cells s.chip := by
  rw [tlkStorageFlashRead]
  dsimp only
  rw [restoreBrpe_chip]
  exact hchip.read_cells addr len s.chip

/-- The byte that a program leaves where it can be stored. -/
theorem and_of_storable {old b : Byte} (h : old = SOC_FLASH_CLEAN_BYTE ∨ Clears old b) :
    old &&& b = b := by
  rcases h with rfl | h
  · exact UInt8.neg_one_and
  · exact and_of_clears h

/-- Over a chip that erases sectors and programs by AND, the device keeps what the storage layer
asks of a paged device. -/
theorem socFlash0_paged (hchip : ErasesSectors chip cells) {base size : Nat}
    (hbase : base % SOC_FLASH_PAGE_SIZE = 0) (hsize : size % SOC_FLASH_PAGE_SIZE = 0)
    (hwrap : base + size < 2 ^ 32) :
    PagedFlash (socFlash0 chip base size) fun s => cells s.chip where
  paged := show SOC_FLASH_PAGE_SIZE ≠ 0 by decide
  base_aligned := hbase
  size_multiple := hsize
  no_wrap := hwrap
  model := by
    refine ⟨_, rfl, ?_⟩
    constructor
    case read_result => exact fun _ _ _ _ _ => rfl
    case read_data => exact fun addr len s _ _ i hi => hchip.read_data addr len s.chip i hi
    case read_cells => exact fun addr len s _ _ => hchip.flashRead_cells addr len s
    case erase_result => exact fun _ _ _ _ _ => rfl
    case erase_cells => exact fun addr s haligned _ _ => hchip.flashErase_spec haligned SOC_FLASH_PAGE_SIZE s
    case write_result =>
      intro addr data len s _ _ _ hend
      exact (hchip.flashWrite_spec data (Nat.lt_of_le_of_lt hend hwrap) s).1
    case write_stored =>
      intro addr data len s _ _ _ hend i hi hok
      have hcells := (hchip.flashWrite_spec data (Nat.lt_of_le_of_lt hend hwrap) s).2
      refine (congrFun hcells (addr + i)).trans ?_
      rw [overwrite_inside _ _ (by omega) (by omega), Nat.add_sub_cancel_left]
      exact and_of_storable hok
    case write_outside =>
      intro addr data len s _ _ _ hend j hj
      have hcells := (hchip.flashWrite_spec data (Nat.lt_of_le_of_lt hend hwrap) s).2
      exact (congrFun hcells j).trans (overwrite_outside _ _ hj)

/-- A write through the storage layer to the flash of the chip, alone in the registry, leaves
exactly the requested bytes. -/
theorem write_to_socFlash0 (hchip : ErasesSectors chip cells) {base size addr len : Nat}
    (hbase : base % SOC_FLASH_PAGE_SIZE = 0) (hsize : size % SOC_FLASH_PAGE_SIZE = 0)
    (hwrap : base + size < 2 ^ 32) (hlo : base ≤ addr) (hhi : addr + len ≤ base + size)
    (hlen : 0 < len) (buf : Nat → Byte) (s : State (FlashBus κ)) :
    (tlkStorageWrite [socFlash0 chip base size] addr (some buf) len s).1 = 0 ∧
    cells (tlkStorageWrite [socFlash0 chip base size] addr (some buf) len s).2.world.chip =
      overwrite (cells s.world.chip) addr len buf := by
  have hcovers : (socFlash0 chip base size).covers addr len = true :=
    covers_of_range hlo hhi hwrap
  have hfind := findDevice_of_only (onlyCover_singleton _ addr len) hcovers
  exact (socFlash0_paged hchip hbase hsize hwrap).flashPages.write_spec hfind hlo hhi hlen buf s

end Device

end UniSdk.Storage
