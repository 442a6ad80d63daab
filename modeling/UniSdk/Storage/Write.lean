import UniSdk.Storage.WalkSpec

/-!
# Writing replaces exactly the requested bytes

The geometry and the callbacks of a paged device are one hypothesis,
`PagedFlash`; that it can be met is shown by `memoryDevice`, a byte array behind
the callback interface. The registry may hold other devices as long as none of
them also covers the range.
-/

namespace UniSdk.Storage

open Library.Cells Library.Words

variable {σ : Type}

/-- A paged device over a byte array: page-aligned base, size a multiple of the
page, no address wrap, all pointers set, callbacks as in `FlashModel`. -/
structure PagedFlash (dev : Device σ) (cells : σ → Nat → Byte) : Prop where
  paged : dev.page ≠ 0
  base_aligned : dev.base % dev.page = 0
  size_multiple : dev.size % dev.page = 0
  no_wrap : dev.base + dev.size < 2 ^ 32
  model : ∃ d, dev.pages? paged = some d ∧ FlashModel d dev.base (dev.base + dev.size) cells

theorem pages?_fields {dev : Device σ} {h : dev.page ≠ 0} {d : Pages σ}
    (hd : dev.pages? h = some d) : d.page = dev.page ∧ d.cleanByte = dev.cleanByte := by
  unfold Device.pages? at hd
  split at hd
  · obtain rfl := Option.some.inj hd
    exact ⟨rfl, rfl⟩
  · contradiction

/-- The callbacks of a paged device behave as in `FlashModel` on the pages from `lo` to `hi`. -/
structure FlashPages (dev : Device σ) (cells : σ → Nat → Byte) (lo hi : Nat) : Prop where
  paged : dev.page ≠ 0
  lo_aligned : lo % dev.page = 0
  hi_aligned : hi % dev.page = 0
  no_wrap : hi < 2 ^ 32
  model : ∃ d, dev.pages? paged = some d ∧ FlashModel d lo hi cells

theorem PagedFlash.flashPages {dev : Device σ} {cells : σ → Nat → Byte}
    (hdev : PagedFlash dev cells) : FlashPages dev cells dev.base (dev.base + dev.size) where
  paged := hdev.paged
  lo_aligned := hdev.base_aligned
  hi_aligned := by rw [Nat.add_mod, hdev.base_aligned, hdev.size_multiple, Nat.zero_mod]
  no_wrap := hdev.no_wrap
  model := hdev.model

section FlashPages

variable {devices : List (Device σ)} {dev : Device σ} {cells : σ → Nat → Byte} {lo hi : Nat}

/-- The walk on a registered device, as an effect on the device's cells. -/
theorem FlashPages.walkDevice_spec (hdev : FlashPages dev cells lo hi) {d : Pages σ}
    (hd : dev.pages? hdev.paged = some d) (addr len : Nat) (buf : Option (Nat → Byte))
    (hlo : lo ≤ addr) (hhi : addr + len ≤ hi) (s : State σ) :
    (walkDevice dev d addr buf len s).1 = 0 ∧
    cells (walkDevice dev d addr buf len s).2.world =
      walkCells dev.page dev.cleanByte buf (cells s.world) addr len := by
  obtain ⟨d', hd', hm⟩ := hdev.model
  obtain rfl : d' = d := Option.some.inj (hd'.symm.trans hd)
  obtain ⟨hp, hc⟩ := pages?_fields hd
  have h := hm.walk_spec hdev.no_wrap (by rw [hp]; exact hdev.lo_aligned)
    (by rw [hp]; exact hdev.hi_aligned) len addr buf ⟨s.world, s.buffer dev.id⟩ hlo hhi
  rwa [hp, hc] at h

theorem FlashPages.write_spec (hdev : FlashPages dev cells lo hi) {addr len : Nat}
    (hfind : tlkStorageFindDevice devices addr len = some dev) (hlo : lo ≤ addr)
    (hhi : addr + len ≤ hi) (hlen : 0 < len) (buf : Nat → Byte) (s : State σ) :
    (tlkStorageWrite devices addr (some buf) len s).1 = 0 ∧
    cells (tlkStorageWrite devices addr (some buf) len s).2.world =
      overwrite (cells s.world) addr len buf := by
  obtain ⟨d, hd, _⟩ := hdev.model
  have hcall : tlkStorageWrite devices addr (some buf) len s =
      walkDevice dev d addr (some buf) len s := by
    simp only [tlkStorageWrite, if_neg (Nat.ne_of_gt hlen), hfind, dif_neg hdev.paged, hd]
  have h := hdev.walkDevice_spec hd addr len (some buf) hlo hhi s
  rw [walkCells_some (Nat.pos_of_ne_zero hdev.paged)] at h
  rwa [hcall]

end FlashPages

/-- A paged write inside the device returns zero and replaces exactly the
requested bytes, whatever the cells and the buffer held and however the range
falls on the pages. -/
theorem write_replaces_range {devices : List (Device σ)} {dev : Device σ}
    {cells : σ → Nat → Byte} (hdev : PagedFlash dev cells) {addr len : Nat}
    (hreg : OnlyCover devices dev addr len) (hlo : dev.base ≤ addr)
    (hhi : addr + len ≤ dev.base + dev.size) (hlen : 0 < len) (buf : Nat → Byte) (s : State σ) :
    (tlkStorageWrite devices addr (some buf) len s).1 = 0 ∧
    ∀ j, cells (tlkStorageWrite devices addr (some buf) len s).2.world j =
      if addr ≤ j ∧ j < addr + len then buf (j - addr) else cells s.world j := by
  have hfind := findDevice_of_only hreg (covers_of_range hlo hhi hdev.no_wrap)
  obtain ⟨hr, hc⟩ := hdev.flashPages.write_spec hfind hlo hhi hlen buf s
  exact ⟨hr, fun j => congrFun hc j⟩

/-- A byte array behind the callback interface. A paged one programs a clean
cell, otherwise it can only clear bits; an unpaged one overwrites. -/
def memoryDevice (base size page : Nat) (cleanByte : Byte) : Device (Nat → Byte) where
  id := 0
  base := base
  size := size
  page := page
  cleanByte := cleanByte
  read := some fun addr _ mem => (0, fun i => mem (addr + i), mem)
  erase := if page = 0 then none else some fun addr len mem =>
    (0, overwrite mem addr len fun _ => cleanByte)
  write := some fun addr data len mem =>
    (0, overwrite mem addr len fun i =>
      if page = 0 ∨ mem (addr + i) = cleanByte then data i else mem (addr + i) &&& data i)
  hasBuffer := true

theorem and_of_clears {old b : Byte} (h : Clears old b) : old &&& b = b := by
  have hbits : b.toBitVec &&& ~~~old.toBitVec = 0#8 := congrArg UInt8.toBitVec h
  apply UInt8.eq_of_toBitVec_eq
  change old.toBitVec &&& b.toBitVec = b.toBitVec
  ext i hi
  have hbit := congrArg (fun v : BitVec 8 => v[i]) hbits
  simp only [BitVec.getElem_and, BitVec.getElem_not, BitVec.getElem_zero] at hbit ⊢
  cases hb : b.toBitVec[i] <;> simp_all

theorem memoryDevice_paged {base size page : Nat} (clean : Byte) (hp : page ≠ 0)
    (hb : base % page = 0) (hs : size % page = 0) (hw : base + size < 2 ^ 32) :
    PagedFlash (memoryDevice base size page clean) id where
  paged := hp
  base_aligned := hb
  size_multiple := hs
  no_wrap := hw
  model := by
    refine ⟨_, by simp only [Device.pages?, memoryDevice, if_neg hp]; rfl, ?_⟩
    constructor
    case write_stored =>
      intro addr data len mem _ _ _ _ i hi hok
      simp only [id_eq] at hok ⊢
      rw [overwrite_inside _ _ (by omega) (by omega), Nat.add_sub_cancel_left]
      by_cases hc : mem (addr + i) = clean
      · rw [if_pos (Or.inr hc)]
      · rw [if_neg (by simp [hp, hc])]
        exact and_of_clears (hok.resolve_left hc)
    case write_outside =>
      intro addr data len mem _ _ _ _ j hj
      simp only [id_eq]
      exact overwrite_outside _ _ hj
    all_goals intros; rfl

theorem onlyCover_singleton (dev : Device σ) (addr len : Nat) :
    OnlyCover [dev] dev addr len :=
  ⟨List.mem_singleton.mpr rfl, fun _ h _ => List.mem_singleton.mp h⟩

/-- Five bytes across the boundary of two pages of four. -/
theorem write_replaces_range_across_pages :
    (tlkStorageWrite [memoryDevice 0 16 4 0xFF] 2 (some fun i => UInt8.ofNat i) 5
      ⟨fun _ => 0, fun _ _ => 7⟩).1 = 0 ∧
    ∀ j, (tlkStorageWrite [memoryDevice 0 16 4 0xFF] 2 (some fun i => UInt8.ofNat i) 5
      ⟨fun _ => 0, fun _ _ => 7⟩).2.world j =
      if 2 ≤ j ∧ j < 2 + 5 then UInt8.ofNat (j - 2) else 0 :=
  write_replaces_range (memoryDevice_paged 0xFF (by decide) (by decide) (by decide) (by decide))
    (onlyCover_singleton _ _ _) (by decide) (by decide) (by decide) _ _

end UniSdk.Storage
