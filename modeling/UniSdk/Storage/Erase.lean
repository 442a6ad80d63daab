import UniSdk.Storage.Write

/-!
# When an erase erases

The walk with a null buffer has no in-place branch: a page whose requested bytes
could all reach the clean byte by clearing bits is left as it is and success is
reported. The exact condition under which the range ends up clean follows. An
unpaged device has no such branch and is always cleaned.
-/

namespace UniSdk.Storage

open Library.Cells Library.Words

variable {σ : Type}

/-- An unpaged device over a byte array: a write overwrites and returns zero. -/
structure FlatMemory (dev : Device σ) (cells : σ → Nat → Byte) : Prop where
  unpaged : dev.page = 0
  no_wrap : dev.base + dev.size < 2 ^ 32
  hasBuffer : dev.hasBuffer = true
  model : ∃ write, dev.write = some write ∧ ∀ addr data len w, dev.base ≤ addr →
    addr + len ≤ dev.base + dev.size →
    (write addr data len w).1 = 0 ∧
    cells (write addr data len w).2 = overwrite (cells w) addr len data

/-- Paged or unpaged, the cells are a byte array and the callbacks succeed. -/
def ByteArrayDevice (dev : Device σ) (cells : σ → Nat → Byte) : Prop :=
  PagedFlash dev cells ∨ FlatMemory dev cells

theorem ByteArrayDevice.no_wrap {dev : Device σ} {cells : σ → Nat → Byte}
    (h : ByteArrayDevice dev cells) : dev.base + dev.size < 2 ^ 32 :=
  h.elim PagedFlash.no_wrap FlatMemory.no_wrap

/-- The chunks of the unpaged loop add up to one overwrite with clean bytes. -/
theorem cleanChunks_spec {cells : σ → Nat → Byte} {write : WriteCallback σ} {lo hi : Nat}
    (hwrap : hi < 2 ^ 32)
    (hw : ∀ addr data len w, lo ≤ addr → addr + len ≤ hi →
      (write addr data len w).1 = 0 ∧
      cells (write addr data len w).2 = overwrite (cells w) addr len data)
    {buffer : Nat → Byte} {clean : Byte} :
    ∀ (len addr : Nat) (w : σ), lo ≤ addr → addr + len ≤ hi →
      (∀ i, i < min len STORAGE_DEVICE_DEFAULT_BUFFER_SIZE → buffer i = clean) →
      (cleanChunks write buffer addr len w).1 = 0 ∧
      cells (cleanChunks write buffer addr len w).2 =
        overwrite (cells w) addr len fun _ => clean := by
  intro len
  induction len using Nat.strong_induction_on with
  | h len ih =>
    intro addr w hlo hhi hbuf
    by_cases hl : len = 0
    · rw [cleanChunks, if_pos hl, hl, overwrite_zero]
      exact ⟨rfl, rfl⟩
    · have hn : 0 < min len STORAGE_DEVICE_DEFAULT_BUFFER_SIZE := by
        simp only [STORAGE_DEVICE_DEFAULT_BUFFER_SIZE]
        omega
      have hle : min len STORAGE_DEVICE_DEFAULT_BUFFER_SIZE ≤ len := Nat.min_le_left _ _
      have hshort : ∀ i, i < min (len - min len STORAGE_DEVICE_DEFAULT_BUFFER_SIZE)
          STORAGE_DEVICE_DEFAULT_BUFFER_SIZE → buffer i = clean :=
        fun i hi => hbuf i (by omega)
      rw [cleanChunks, if_neg hl]
      generalize min len STORAGE_DEVICE_DEFAULT_BUFFER_SIZE = n at hn hle hbuf hshort ⊢
      obtain ⟨hr, hc⟩ := hw addr buffer n w hlo (by omega)
      dsimp only
      rw [andThen_of_zero hr, u32_of_lt (by omega)]
      obtain ⟨hr', hc'⟩ := ih (len - n) (by omega) (addr + n) (write addr buffer n w).2
        (by omega) (by omega) hshort
      refine ⟨hr', hc'.trans ?_⟩
      rw [hc, overwrite_congr _ _ _ hbuf]
      conv_rhs => rw [show len = n + (len - n) from by omega]
      exact overwrite_append (cells w) addr n (len - n) fun _ => clean

theorem FlatMemory.erase_spec {devices : List (Device σ)} {dev : Device σ}
    {cells : σ → Nat → Byte} (hdev : FlatMemory dev cells) {addr len : Nat}
    (hreg : OnlyCover devices dev addr len) (hlo : dev.base ≤ addr)
    (hhi : addr + len ≤ dev.base + dev.size) (hlen : 0 < len) (s : State σ) :
    (tlkStorageErase devices addr len s).1 = 0 ∧
    cells (tlkStorageErase devices addr len s).2.world =
      overwrite (cells s.world) addr len fun _ => dev.cleanByte := by
  obtain ⟨write, hwr, hw⟩ := hdev.model
  have hfind := findDevice_of_only hreg (covers_of_range hlo hhi hdev.no_wrap)
  simp only [tlkStorageErase, if_neg (Nat.ne_of_gt hlen), hfind, dif_pos hdev.unpaged, hwr,
    hdev.hasBuffer]
  refine cleanChunks_spec hdev.no_wrap hw len addr s.world hlo hhi fun i hi => ?_
  rw [overwrite_inside _ _ (Nat.zero_le i) (by omega)]

theorem PagedFlash.erase_spec {devices : List (Device σ)} {dev : Device σ}
    {cells : σ → Nat → Byte} (hdev : PagedFlash dev cells) {addr len : Nat}
    (hreg : OnlyCover devices dev addr len) (hlo : dev.base ≤ addr)
    (hhi : addr + len ≤ dev.base + dev.size) (hlen : 0 < len) (s : State σ) :
    (tlkStorageErase devices addr len s).1 = 0 ∧
    cells (tlkStorageErase devices addr len s).2.world =
      walkCells dev.page dev.cleanByte none (cells s.world) addr len := by
  obtain ⟨d, hd, _⟩ := hdev.model
  have hfind := findDevice_of_only hreg (covers_of_range hlo hhi hdev.no_wrap)
  have hcall : tlkStorageErase devices addr len s = walkDevice dev d addr none len s := by
    simp only [tlkStorageErase, if_neg (Nat.ne_of_gt hlen), hfind, dif_neg hdev.paged, hd]
  rw [hcall]
  exact hdev.flashPages.walkDevice_spec hd addr len none hlo hhi s

/-- The range is clean and nothing else has changed. -/
def Erased (clean : Byte) (mem mem' : Nat → Byte) (addr len : Nat) : Prop :=
  (∀ j, addr ≤ j → j < addr + len → mem' j = clean) ∧
  ∀ j, j < addr ∨ addr + len ≤ j → mem' j = mem j

/-- Where every dirty byte shares its page with one that needs an erase, all bytes are erased. -/
theorem PagedFlash.erased {devices : List (Device σ)} {dev : Device σ}
    {cells : σ → Nat → Byte} (hdev : PagedFlash dev cells) {addr len : Nat}
    (hreg : OnlyCover devices dev addr len) (hlo : dev.base ≤ addr)
    (hhi : addr + len ≤ dev.base + dev.size) (hlen : 0 < len) (s : State σ)
    (hneeds : ∀ j, addr ≤ j → j < addr + len → cells s.world j = dev.cleanByte ∨
      NeedsErase dev.page dev.cleanByte (cells s.world) addr len j) :
    Erased dev.cleanByte (cells s.world)
      (cells (tlkStorageErase devices addr len s).2.world) addr len := by
  have hp := Nat.pos_of_ne_zero hdev.paged
  rw [(hdev.erase_spec hreg hlo hhi hlen s).2]
  refine ⟨fun j hj hj' => ?_, fun j hj => ?_⟩
  · rw [walkCells_none hp]
    rcases hneeds j hj hj' with hclean | hn
    · rw [hclean, ite_self]
    · rw [if_pos ⟨hj, hj', hn⟩]
  · rw [walkCells_none hp, if_neg (by omega)]

theorem FlatMemory.erased {devices : List (Device σ)} {dev : Device σ}
    {cells : σ → Nat → Byte} (hdev : FlatMemory dev cells) {addr len : Nat}
    (hreg : OnlyCover devices dev addr len) (hlo : dev.base ≤ addr)
    (hhi : addr + len ≤ dev.base + dev.size) (hlen : 0 < len) (s : State σ) :
    Erased dev.cleanByte (cells s.world)
      (cells (tlkStorageErase devices addr len s).2.world) addr len := by
  rw [(hdev.erase_spec hreg hlo hhi hlen s).2]
  refine ⟨fun j hj hj' => ?_, fun j hj => ?_⟩
  · exact overwrite_inside _ _ hj hj'
  · exact overwrite_outside _ _ hj

/-- A successful erase has erased exactly when the device is unpaged, or every
requested byte is clean already or shares its page with a requested byte that
lacks a bit of the clean byte. -/
theorem erase_erases_iff {devices : List (Device σ)} {dev : Device σ}
    {cells : σ → Nat → Byte} (hdev : ByteArrayDevice dev cells) {addr len : Nat}
    (hreg : OnlyCover devices dev addr len) (hlo : dev.base ≤ addr)
    (hhi : addr + len ≤ dev.base + dev.size) (hlen : 0 < len) (s : State σ) :
    ((tlkStorageErase devices addr len s).1 = 0 →
      Erased dev.cleanByte (cells s.world)
        (cells (tlkStorageErase devices addr len s).2.world) addr len) ↔
    (dev.page = 0 ∨ ∀ j, addr ≤ j → j < addr + len →
      cells s.world j = dev.cleanByte ∨
      NeedsErase dev.page dev.cleanByte (cells s.world) addr len j) := by
  rcases hdev with hdev | hdev
  · constructor
    · intro h
      obtain ⟨hr, hc⟩ := hdev.erase_spec hreg hlo hhi hlen s
      obtain ⟨hin, _⟩ := h hr
      refine Or.inr fun j hj hj' => ?_
      have hclean := hin j hj hj'
      rw [hc, walkCells_none (Nat.pos_of_ne_zero hdev.paged)] at hclean
      by_cases hn : NeedsErase dev.page dev.cleanByte (cells s.world) addr len j
      · exact Or.inr hn
      · rw [if_neg (fun h => hn h.2.2)] at hclean
        exact Or.inl hclean
    · intro h _
      rcases h with hunpaged | hneeds
      · exact absurd hunpaged hdev.paged
      · exact hdev.erased hreg hlo hhi hlen s hneeds
  · exact ⟨fun _ => Or.inl hdev.unpaged, fun _ _ => hdev.erased hreg hlo hhi hlen s⟩

/-- Four bytes inside a device of two pages that erases to ones. -/
theorem erase_erases_iff_ones :
    ((tlkStorageErase [memoryDevice 0 8 4 0xFF] 2 4 ⟨fun _ => 0, fun _ _ => 7⟩).1 = 0 →
      Erased 0xFF (fun _ => 0)
        (tlkStorageErase [memoryDevice 0 8 4 0xFF] 2 4 ⟨fun _ => 0, fun _ _ => 7⟩).2.world 2 4) ↔
    (4 = 0 ∨ ∀ j, 2 ≤ j → j < 2 + 4 → (0 : Byte) = 0xFF ∨
      NeedsErase 4 0xFF (fun _ => 0) 2 4 j) :=
  erase_erases_iff
    (Or.inl (memoryDevice_paged 0xFF (by decide) (by decide) (by decide) (by decide)))
    (onlyCover_singleton _ _ _) (by decide) (by decide) (by decide) _

/-- A device that erases to zeros, holding ones: the erase reports success and
leaves every byte as it was. -/
theorem erase_to_zeros_skipped :
    ByteArrayDevice (memoryDevice 0 4 4 0) id ∧
    OnlyCover [memoryDevice 0 4 4 0] (memoryDevice 0 4 4 0) 0 4 ∧
    (tlkStorageErase [memoryDevice 0 4 4 0] 0 4 ⟨fun _ => 0xFF, fun _ _ => 0⟩).1 = 0 ∧
    (tlkStorageErase [memoryDevice 0 4 4 0] 0 4 ⟨fun _ => 0xFF, fun _ _ => 0⟩).2.world 0 ≠
      (memoryDevice 0 4 4 0).cleanByte := by
  refine ⟨Or.inl (memoryDevice_paged 0 (by decide) (by decide) (by decide) (by decide)),
    onlyCover_singleton _ _ _, ?_, ?_⟩
  · decide +kernel
  · decide +kernel

theorem clears_ones_iff (old : Byte) : Clears old 0xFF ↔ old = 0xFF := by
  constructor
  · intro h
    have hand := and_of_clears h
    rwa [show (0xFF : Byte) = -1 from rfl, UInt8.and_neg_one] at hand
  · rintro rfl
    decide

/-- With the clean byte of the SoC flash every dirty byte needs an erase. -/
theorem erase_erases_of_ones {devices : List (Device σ)} {dev : Device σ}
    {cells : σ → Nat → Byte} (hdev : ByteArrayDevice dev cells) {addr len : Nat}
    (hreg : OnlyCover devices dev addr len) (hlo : dev.base ≤ addr)
    (hhi : addr + len ≤ dev.base + dev.size) (hlen : 0 < len) (s : State σ)
    (hones : dev.cleanByte = 0xFF) :
    Erased dev.cleanByte (cells s.world)
      (cells (tlkStorageErase devices addr len s).2.world) addr len := by
  rcases hdev with hdev | hdev
  · refine hdev.erased hreg hlo hhi hlen s fun j hj hj' => ?_
    by_cases hclean : cells s.world j = dev.cleanByte
    · exact Or.inl hclean
    · refine Or.inr ⟨j, hj, hj', rfl, ?_⟩
      rw [hones] at hclean ⊢
      exact fun h => hclean ((clears_ones_iff _).mp h)
  · exact hdev.erased hreg hlo hhi hlen s

end UniSdk.Storage
