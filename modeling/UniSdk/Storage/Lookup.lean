import Mathlib.Data.List.Find
import UniSdk.Storage.Trace
import UniSdk.Storage.Write

/-!
# The address lookup against exact arithmetic

`tlk_storage_find_device` compares sums that wrap at `2^32`. With devices that end below that,
only `addr + len` can wrap, and a wrapped end lies below the end of any device it is compared
with by accident. Here the lookup and the calls that follow it are compared with the range test
on integers: what is found, and whether a callback ever gets a range that leaves its device.
-/

namespace UniSdk.Storage

open Library.Cells Library.Aligned Library.Words Library.CallLog

variable {σ : Type}

/-- The numbers of a device. -/
structure Region where
  base : Nat
  size : Nat
  page : Nat
  deriving DecidableEq

def Device.region (dev : Device σ) : Region := ⟨dev.base, dev.size, dev.page⟩

/-- The range lies in the region, on integers. -/
def Region.holds (r : Region) (addr len : Nat) : Bool :=
  r.base ≤ addr && addr + len ≤ r.base + r.size

theorem Region.holds_iff {r : Region} {addr len : Nat} :
    r.holds addr len = true ↔ r.base ≤ addr ∧ addr + len ≤ r.base + r.size := by
  rw [Region.holds, Bool.and_eq_true, decide_eq_true_eq, decide_eq_true_eq]

/-- One of the three entry points with the pointer it is called with. -/
inductive Request
  | read (dst : Bool)
  | write (buf : Option (Nat → Byte))
  | erase

/-- The calls that a request makes. -/
def Request.calls (devices : List (Device σ)) (addr len : Nat) (s : State σ) :
    Request → List Event
  | .read dst =>
    (tlkStorageRead (devices.map Device.traced) addr dst len ⟨(s.world, []), s.buffer⟩).2.2.world.2
  | .write buf =>
    (tlkStorageWrite (devices.map Device.traced) addr buf len ⟨(s.world, []), s.buffer⟩).2.world.2
  | .erase =>
    (tlkStorageErase (devices.map Device.traced) addr len ⟨(s.world, []), s.buffer⟩).2.world.2

/-- The lookup finds what the integers say, and no call leaves the device found. -/
structure LookupExact (devices : List (Device σ)) (addr len : Nat) : Prop where
  found : tlkStorageFindDevice devices addr len =
    devices.find? fun dev => dev.region.holds addr len
  calls_inside : ∀ (q : Request) (s : State σ), ∀ e ∈ q.calls devices addr len s,
    ∃ dev, tlkStorageFindDevice devices addr len = some dev ∧
      dev.region.holds e.addr e.len = true

/-- The last address of the range wraps below the end of no device at or below its start, and the
pages that the range meets lie in the device that holds it. -/
structure RangeFits (regions : List Region) (addr len : Nat) : Prop where
  no_alias : addr + len < 2 ^ 32 ∨
    ∀ r ∈ regions, r.base ≤ addr → r.base + r.size < addr + len - 2 ^ 32
  pages_inside : ∀ r, regions.find? (fun r => r.holds addr len) = some r → r.page ≠ 0 → len ≠ 0 →
    r.base ≤ addr - addr % r.page ∧
      addr + len - 1 - (addr + len - 1) % r.page + r.page ≤ r.base + r.size

/-! ### The lookup -/

section Lookup

variable {devices : List (Device σ)} {addr len : Nat}

/-- On one device the wrapping test is the exact one, unless the end of the range wraps into the
device's reach. -/
theorem covers_eq_holds_iff {dev : Device σ} (hfit : dev.base + dev.size < 2 ^ 32)
    (haddr : addr < 2 ^ 32) (hlen : len < 2 ^ 32) :
    dev.covers addr len = dev.region.holds addr len ↔
      (addr + len < 2 ^ 32 ∨
        (dev.base ≤ addr → dev.base + dev.size < addr + len - 2 ^ 32)) := by
  have hcovers : dev.covers addr len = true ↔
      dev.base ≤ addr ∧ u32 (addr + len) ≤ dev.base + dev.size := by
    rw [Device.covers, Bool.and_eq_true, decide_eq_true_eq, decide_eq_true_eq, u32_of_lt hfit]
  rw [Bool.eq_iff_iff, hcovers, Region.holds_iff]
  unfold Device.region u32
  dsimp only
  omega

/-- No device ends high enough to hold a range that wraps. -/
theorem not_holds_of_wrap {dev : Device σ} (hfit : dev.base + dev.size < 2 ^ 32)
    (hwrap : 2 ^ 32 ≤ addr + len) : dev.region.holds addr len = false := by
  rw [Bool.eq_false_iff, ne_eq, Region.holds_iff]
  unfold Device.region
  dsimp only
  omega

/-- The whole lookup is exact when it is exact on every device, and only then. -/
theorem findDevice_eq_iff (hfit : ∀ dev ∈ devices, dev.base + dev.size < 2 ^ 32)
    (haddr : addr < 2 ^ 32) (hlen : len < 2 ^ 32) :
    tlkStorageFindDevice devices addr len =
        devices.find? (fun dev => dev.region.holds addr len) ↔
      (addr + len < 2 ^ 32 ∨
        ∀ dev ∈ devices, dev.base ≤ addr → dev.base + dev.size < addr + len - 2 ^ 32) := by
  constructor
  · intro h
    refine or_iff_not_imp_left.mpr fun hwrap dev hmem => ?_
    have hnone : devices.find? (fun dev => dev.region.holds addr len) = none :=
      List.find?_eq_none.mpr fun d hd => by
        rw [not_holds_of_wrap (hfit d hd) (Nat.le_of_not_lt hwrap)]
        exact Bool.false_ne_true
    have hcovers := List.find?_eq_none.mp (h.trans hnone) dev hmem
    have hsame : dev.covers addr len = dev.region.holds addr len := by
      rw [not_holds_of_wrap (hfit dev hmem) (Nat.le_of_not_lt hwrap)]
      exact Bool.eq_false_iff.mpr hcovers
    exact ((covers_eq_holds_iff (hfit dev hmem) haddr hlen).mp hsame).resolve_left hwrap
  · intro h
    refine List.find?_congr fun dev hmem => ?_
    exact (covers_eq_holds_iff (hfit dev hmem) haddr hlen).mpr (h.imp_right fun h => h dev hmem)

end Lookup

/-! ### The calls of a request -/

section Calls

variable {devices : List (Device σ)} {addr len : Nat}

/-- A read makes at most the one call it is asked for. -/
theorem read_calls (dst : Bool) (s : State σ) :
    ∀ e ∈ (Request.read dst).calls devices addr len s,
      ∃ dev, tlkStorageFindDevice devices addr len = some dev ∧ e.addr = addr ∧ e.len = len := by
  change ∀ e ∈ (tlkStorageRead (devices.map Device.traced) addr dst len _).2.2.world.2, _
  unfold tlkStorageRead
  rw [findDevice_traced]
  split
  · exact fun e he => absurd he List.not_mem_nil
  · cases hfind : tlkStorageFindDevice devices addr len with
    | none => exact fun e he => absurd he List.not_mem_nil
    | some dev =>
      cases hread : dev.read with
      | none =>
        simp only [Option.map_some, Device.traced, hread, Option.map_none]
        exact fun e he => absurd he List.not_mem_nil
      | some read =>
        simp only [Option.map_some, Device.traced, hread]
        intro e he
        obtain rfl := List.mem_singleton.mp he
        exact ⟨dev, rfl, rfl, rfl⟩

/-- The unpaged erase loop goes through the range from its start to its end. -/
theorem cleanChunks_calls (write : WriteCallback σ) (buffer : Nat → Byte) :
    ∀ (len addr : Nat) (w : Traced σ), addr + len < 2 ^ 32 →
      ∃ calls, (cleanChunks (WriteCallback.traced write) buffer addr len w).2.2 = w.2 ++ calls ∧
        ∀ e ∈ calls, addr ≤ e.addr ∧ e.addr + e.len ≤ addr + len := by
  intro len
  induction len using Nat.strong_induction_on with
  | h len ih =>
    intro addr w hwrap
    by_cases hl : len = 0
    · refine ⟨[], ?_, fun e he => absurd he List.not_mem_nil⟩
      rw [cleanChunks, if_pos hl, List.append_nil]
    · have hn : 0 < min len STORAGE_DEVICE_DEFAULT_BUFFER_SIZE := by
        unfold STORAGE_DEVICE_DEFAULT_BUFFER_SIZE
        omega
      have hle : min len STORAGE_DEVICE_DEFAULT_BUFFER_SIZE ≤ len := Nat.min_le_left _ _
      rw [cleanChunks, if_neg hl]
      dsimp only
      generalize min len STORAGE_DEVICE_DEFAULT_BUFFER_SIZE = n at hn hle ⊢
      have hfirst : ∃ e : Event, (e.addr = addr ∧ e.len = n) ∧
          (WriteCallback.traced write addr buffer n w).2.2 = w.2 ++ [e] :=
        ⟨_, ⟨rfl, rfl⟩, rfl⟩
      obtain ⟨first, ⟨haddr, hlen⟩, hlog⟩ := hfirst
      unfold andThen
      split
      · refine ⟨[first], hlog, fun e he => ?_⟩
        rw [List.mem_singleton.mp he, haddr, hlen]
        omega
      · rw [u32_of_lt (by omega)]
        obtain ⟨rest, hlog', hin⟩ := ih (len - n) (by omega) (addr + n)
          (WriteCallback.traced write addr buffer n w).2 (by omega)
        refine ⟨first :: rest, ?_, fun e he => ?_⟩
        · rw [hlog', hlog, List.append_assoc]
          rfl
        · rcases List.mem_cons.mp he with rfl | he
          · omega
          · have := hin e he
            omega

section Unpaged

variable {dev : Device σ} (hfind : tlkStorageFindDevice devices addr len = some dev)
  (hunpaged : dev.page = 0)

include hfind hunpaged

/-- A write to an unpaged device asks for the range. -/
theorem unpaged_write_calls (b : Nat → Byte) (s : State σ) :
    ∀ e ∈ callLog devices addr (some b) len s, e.addr = addr ∧ e.len = len := by
  have hunpaged' : dev.traced.page = 0 := hunpaged
  rw [callLog, tracedUpdate, tlkStorageUpdate, tlkStorageWrite, findDevice_traced_some hfind]
  dsimp only
  split
  · exact fun e he => absurd he List.not_mem_nil
  · cases hwrite : dev.write with
    | none =>
      simp only [Device.traced, hwrite, Option.map_none]
      exact fun e he => absurd he List.not_mem_nil
    | some write =>
      simp only [Device.traced, hwrite, Option.map_some]
      intro e he
      obtain rfl := List.mem_singleton.mp he
      exact ⟨rfl, rfl⟩

/-- An erase of an unpaged device asks for parts of the range. -/
theorem unpaged_erase_calls (hwrap : addr + len < 2 ^ 32) (s : State σ) :
    ∀ e ∈ callLog devices addr none len s, addr ≤ e.addr ∧ e.addr + e.len ≤ addr + len := by
  have hunpaged' : dev.traced.page = 0 := hunpaged
  rw [callLog, tracedUpdate, tlkStorageUpdate, tlkStorageErase, findDevice_traced_some hfind]
  dsimp only
  split
  · exact fun e he => absurd he List.not_mem_nil
  · cases hwrite : dev.write with
    | none =>
      simp only [Device.traced, hwrite, Option.map_none]
      exact fun e he => absurd he List.not_mem_nil
    | some write =>
      cases hbuffer : dev.hasBuffer with
      | false =>
        simp only [Device.traced, hwrite, hbuffer, Option.map_some]
        exact fun e he => absurd he List.not_mem_nil
      | true =>
        simp only [Device.traced, hwrite, hbuffer, Option.map_some]
        obtain ⟨calls, hlog, hin⟩ := cleanChunks_calls write
          (overwrite (s.buffer dev.id) 0 (min len STORAGE_DEVICE_DEFAULT_BUFFER_SIZE)
            fun _ => dev.cleanByte) len addr (s.world, []) hwrap
        intro e he
        exact hin e (List.nil_append calls ▸ hlog ▸ he)

theorem unpaged_calls (hwrap : addr + len < 2 ^ 32) (buf : Option (Nat → Byte)) (s : State σ) :
    ∀ e ∈ callLog devices addr buf len s, addr ≤ e.addr ∧ e.addr + e.len ≤ addr + len := by
  cases buf with
  | none => exact unpaged_erase_calls hfind hunpaged hwrap s
  | some b =>
    intro e he
    obtain ⟨haddr, hlen⟩ := unpaged_write_calls hfind hunpaged b s e he
    rw [haddr, hlen]
    exact ⟨Nat.le_refl _, Nat.le_refl _⟩

end Unpaged

/-- An update of a paged device asks for parts of the pages that the range meets. -/
theorem paged_calls {dev : Device σ} (hfind : tlkStorageFindDevice devices addr len = some dev)
    (hpaged : dev.page ≠ 0)
    (hwrap : addr + len - 1 - (addr + len - 1) % dev.page + dev.page ≤ 2 ^ 32)
    (buf : Option (Nat → Byte)) (s : State σ) :
    ∀ e ∈ callLog devices addr buf len s, addr - addr % dev.page ≤ e.addr ∧
      e.addr + e.len ≤ addr + len - 1 - (addr + len - 1) % dev.page + dev.page := by
  rcases tracedUpdate_cases hfind hpaged buf s with hnone | ⟨d, hd, -, hlog⟩
  · rw [hnone]
    exact fun e he => absurd he List.not_mem_nil
  · obtain ⟨hp, -⟩ := pages?_fields hd
    rw [← hp] at hwrap ⊢
    have hlast := Nat.mod_lt (addr + len - 1) d.page_pos
    have hlow := Nat.mod_le (addr + len - 1) d.page
    have haligned : (addr + len - 1 - (addr + len - 1) % d.page + d.page) % d.page = 0 := by
      rw [Nat.add_mod_right, blockStart_mod]
    obtain ⟨calls, hcalls, hin, -⟩ := walk_ran d hwrap (blockStart_mod d.page addr) haligned len
      addr buf ⟨(s.world, []), s.buffer dev.id⟩ (Nat.sub_le _ _) (by omega)
    rw [hlog, hcalls]
    intro e he
    obtain ⟨start, -, hlo, hhi, -, -, hcall⟩ := hin e he
    exact ⟨Nat.le_trans hlo hcall.low, Nat.le_trans hcall.high hhi⟩

/-- A request for which no device is found makes no call. -/
theorem calls_of_none (hfind : tlkStorageFindDevice devices addr len = none) (q : Request)
    (s : State σ) : q.calls devices addr len s = [] := by
  have hfind' : tlkStorageFindDevice (devices.map Device.traced) addr len = none := by
    rw [findDevice_traced, hfind]
    rfl
  unfold Request.calls
  cases q with
  | read dst =>
    dsimp only
    rw [tlkStorageRead, hfind']
    split <;> rfl
  | write buf =>
    cases buf with
    | none => rfl
    | some b =>
      dsimp only
      rw [tlkStorageWrite, hfind']
      dsimp only
      split <;> rfl
  | erase =>
    dsimp only
    rw [tlkStorageErase, hfind']
    split <;> rfl

theorem calls_of_len_zero (hlen : len = 0) (q : Request) (s : State σ) :
    q.calls devices addr len s = [] := by
  unfold Request.calls
  cases q with
  | read dst =>
    dsimp only
    rw [tlkStorageRead, if_pos (by simp [hlen])]
  | write buf =>
    cases buf with
    | none => rfl
    | some b =>
      dsimp only
      rw [tlkStorageWrite]
      dsimp only
      rw [if_pos hlen]
  | erase =>
    dsimp only
    rw [tlkStorageErase, if_pos hlen]

/-- **Inside the device that the integers give, every call stays inside.** -/
theorem calls_inside {dev : Device σ} (hfit : dev.base + dev.size < 2 ^ 32)
    (hfind : tlkStorageFindDevice devices addr len = some dev)
    (hholds : dev.region.holds addr len = true)
    (hpages : dev.page ≠ 0 → len ≠ 0 → dev.base ≤ addr - addr % dev.page ∧
      addr + len - 1 - (addr + len - 1) % dev.page + dev.page ≤ dev.base + dev.size)
    (q : Request) (s : State σ) :
    ∀ e ∈ q.calls devices addr len s, dev.region.holds e.addr e.len = true := by
  obtain ⟨hlo, hhi⟩ := Region.holds_iff.mp hholds
  change dev.base ≤ addr at hlo
  change addr + len ≤ dev.base + dev.size at hhi
  by_cases hlen : len = 0
  · rw [calls_of_len_zero hlen]
    exact fun e he => absurd he List.not_mem_nil
  have hupdate : ∀ buf, ∀ e ∈ callLog devices addr buf len s,
      dev.region.holds e.addr e.len = true := by
    intro buf e he
    refine Region.holds_iff.mpr ?_
    change dev.base ≤ e.addr ∧ e.addr + e.len ≤ dev.base + dev.size
    by_cases hpaged : dev.page = 0
    · have := unpaged_calls hfind hpaged (by omega) buf s e he
      omega
    · obtain ⟨hfirst, hlast⟩ := hpages hpaged hlen
      have := paged_calls hfind hpaged (by omega) buf s e he
      omega
  cases q with
  | read dst =>
    intro e he
    obtain ⟨d, -, haddr, hlen⟩ := read_calls dst s e he
    rw [haddr, hlen]
    exact hholds
  | write buf =>
    cases buf with
    | none => exact fun e he => absurd he List.not_mem_nil
    | some b => exact hupdate (some b)
  | erase => exact hupdate none

end Calls

/-! ### Devices that have every page rebuilt -/

/-- A paged device whose callbacks succeed and that reads zeros. -/
def blankPages (page : Nat) (hp : 0 < page) : Pages Unit where
  page := page
  page_pos := hp
  cleanByte := 0xFF
  read _ _ _ := (0, fun _ => 0, ())
  erase _ _ _ := (0, ())
  write _ _ _ _ := (0, ())

def blankDevice (r : Region) : Device Unit where
  id := 0
  base := r.base
  size := r.size
  page := r.page
  cleanByte := 0xFF
  read := some fun _ _ _ => (0, fun _ => 0, ())
  erase := some fun _ _ _ => (0, ())
  write := some fun _ _ _ _ => (0, ())
  hasBuffer := true

/-- The run succeeded and lost no call of the log. -/
def Kept (s : Walk (Traced σ)) (r : Int × Walk (Traced σ)) : Prop :=
  r.1 = 0 ∧ s.world.2 ⊆ r.2.world.2

theorem Kept.refl (s : Walk (Traced σ)) : Kept s (0, s) := ⟨rfl, List.Subset.refl _⟩

theorem Kept.trans {s : Walk (Traced σ)} {r r' : Int × Walk (Traced σ)} (h : Kept s r)
    (h' : Kept r.2 r') : Kept s r' :=
  ⟨h'.1, List.Subset.trans h.2 h'.2⟩

section Blank

variable {page : Nat} {hp : 0 < page}

theorem kept_readInto (addr pos len : Nat) (s : Walk (Traced Unit)) :
    Kept s (readInto (blankPages page hp).traced addr pos len s) :=
  ⟨rfl, List.subset_append_left _ _⟩

theorem kept_writeFrom (addr : Nat) (data : Nat → Byte) (len : Nat) (s : Walk (Traced Unit)) :
    Kept s (writeFrom (blankPages page hp).traced addr data len s) :=
  ⟨rfl, List.subset_append_left _ _⟩

theorem kept_restorePage (start : Nat) (s : Walk (Traced Unit)) :
    Kept s (restorePage (blankPages page hp).traced start s) := by
  unfold restorePage
  dsimp only
  split
  · exact kept_writeFrom _ _ _ s
  · exact Kept.refl s

/-- The erase of the page at `start`. -/
def eraseOf (page start : Nat) : Event := ⟨.erase, start, page, 0⟩

theorem rebuildPage_erases (addr : Nat) (buf : Option (Nat → Byte)) (off len : Nat)
    (s : Walk (Traced Unit)) :
    Kept s (rebuildPage (blankPages page hp).traced addr buf off len s) ∧
      eraseOf page (addr - off) ∈
        (rebuildPage (blankPages page hp).traced addr buf off len s).2.world.2 := by
  have hread : ∀ (c : Prop) [Decidable c] (addr pos len : Nat) (s : Walk (Traced Unit)),
      Kept s (if c then readInto (blankPages page hp).traced addr pos len s else (0, s)) := by
    intro c _ addr pos len s
    split
    · exact kept_readInto addr pos len s
    · exact Kept.refl s
  unfold rebuildPage
  dsimp only
  have hhead := hread (off ≠ 0) (addr - off) 0 off s
  rw [andThen_of_zero hhead.1]
  generalize (if off ≠ 0 then readInto _ (addr - off) 0 off s else (0, s)) = r₁ at hhead ⊢
  have htail := hread (off + len < (blankPages page hp).traced.page) (u32 (addr + len)) (off + len)
    ((blankPages page hp).traced.page - (off + len)) { r₁.2 with
      buffer := overwrite r₁.2.buffer off len (newByte (blankPages page hp).traced.cleanByte buf) }
  rw [andThen_of_zero htail.1]
  generalize (if off + len < _ then readInto _ _ _ _ _ else (0, _)) = r₂ at htail ⊢
  rw [andThen_of_zero rfl]
  have herase : Kept r₂.2 (eraseAt (blankPages page hp).traced (addr - off) r₂.2) :=
    ⟨rfl, List.subset_append_left _ _⟩
  have hrestore := @kept_restorePage page hp (addr - off)
    (eraseAt (blankPages page hp).traced (addr - off) r₂.2).2
  refine ⟨(hhead.trans htail).trans (herase.trans hrestore), hrestore.2 ?_⟩
  exact List.mem_append_right _ List.mem_cons_self

/-- Ones over zeros: the page is erased. -/
theorem modifyPage_erases (addr off : Nat) {len : Nat} (hpos : 0 < len) (s : Walk (Traced Unit)) :
    Kept s (modifyPage (blankPages page hp).traced addr (some fun _ => 0xFF) off len s) ∧
      eraseOf page (addr - off) ∈ (modifyPage (blankPages page hp).traced addr
        (some fun _ => 0xFF) off len s).2.world.2 := by
  have hread := @kept_readInto page hp addr off len s
  have hzero : ∀ i, i < len →
      (readInto (blankPages page hp).traced addr off len s).2.buffer (off + i) = 0 :=
    fun i hi => overwrite_inside _ _ (by omega) (by omega)
  unfold modifyPage
  rw [andThen_of_zero hread.1]
  generalize readInto (blankPages page hp).traced addr off len s = r at hread hzero ⊢
  dsimp only
  have hones : newByte (blankPages page hp).traced.cleanByte (some fun _ => 0xFF) = fun _ => 0xFF :=
    rfl
  rw [hones]
  have hsame : (scan (fun i => r.2.buffer (off + i)) (fun _ => 0xFF) len 0 true true).2 ≠ true := by
    intro h
    have hfirst := (scan_sameData _ _ len).mp h 0 hpos
    rw [hzero 0 hpos] at hfirst
    exact absurd hfirst (by decide)
  have hclear : (scan (fun i => r.2.buffer (off + i)) (fun _ => 0xFF) len 0 true true).1 ≠ true := by
    intro h
    have hfirst := (scan_noErase _ _ len).mp h 0 hpos
    rw [hzero 0 hpos] at hfirst
    exact absurd hfirst (by decide)
  rw [if_neg hsame, if_neg hclear]
  obtain ⟨hkept, herase⟩ := @rebuildPage_erases page hp addr (some fun _ => 0xFF) off len r.2
  exact ⟨hread.trans hkept, herase⟩

/-- The walk erases the page of the first address of the range and the page of the last. -/
theorem walk_erases : ∀ (len addr : Nat) (s : Walk (Traced Unit)), len ≠ 0 → addr + len ≤ 2 ^ 32 →
    Kept s (tlkStorageModifyPages (blankPages page hp).traced addr (some fun _ => 0xFF) len s) ∧
      ∀ x, x = addr ∨ x = addr + len - 1 → eraseOf page (x - x % page) ∈
        (tlkStorageModifyPages (blankPages page hp).traced addr (some fun _ => 0xFF) len
          s).2.world.2 := by
  intro len
  induction len using Nat.strong_induction_on with
  | h len ih =>
    intro addr s hl hwrap
    obtain ⟨hn, -, hle⟩ := pageLen_bounds addr hp hl
    have hfirst : ∀ x, addr ≤ x → x < addr + min len (page - addr % page) →
        x - x % page = addr - addr % page := fun x hx hx' => by
      rw [blockStart_eq, blockStart_eq, first_on_page hp hx hx']
    obtain ⟨hkept, herase⟩ := @modifyPage_erases page hp addr (addr % page) _ hn s
    have hwalk : tlkStorageModifyPages (blankPages page hp).traced addr (some fun _ => 0xFF) len s =
        andThen (modifyPage (blankPages page hp).traced addr (some fun _ => 0xFF) (addr % page)
          (min len (page - addr % page)) s) fun s =>
        tlkStorageModifyPages (blankPages page hp).traced
          (u32 (addr + min len (page - addr % page))) (some fun _ => 0xFF)
          (len - min len (page - addr % page)) s := by
      rw [tlkStorageModifyPages, if_neg hl]
      rfl
    rw [hwalk, andThen_of_zero hkept.1]
    generalize min len (page - addr % page) = n at hn hle hfirst hkept herase ⊢
    by_cases hrest : len - n = 0
    · rw [hrest, tlkStorageModifyPages, if_pos rfl]
      refine ⟨⟨rfl, hkept.2⟩, fun x hx => ?_⟩
      rw [hfirst x (by omega) (by omega)]
      exact herase
    · rw [u32_of_lt (by omega)]
      obtain ⟨hkept', herase'⟩ := ih (len - n) (by omega) (addr + n) _ hrest (by omega)
      refine ⟨hkept.trans hkept', fun x hx => ?_⟩
      rcases hx with rfl | rfl
      · exact hkept'.2 herase
      · exact herase' (addr + len - 1) (Or.inr (by omega))

end Blank

theorem blankDevice_region (regions : List Region) :
    (regions.map blankDevice).map Device.region = regions := by
  rw [List.map_map]
  exact List.map_id regions

/-- A write of ones to a blank device erases the first and the last page of its range. -/
theorem blank_erases {devices : List (Device Unit)} {r : Region} {addr len : Nat}
    (hfind : tlkStorageFindDevice devices addr len = some (blankDevice r)) (hpaged : r.page ≠ 0)
    (hlen : len ≠ 0) (hwrap : addr + len ≤ 2 ^ 32) (s : State Unit) {x : Nat}
    (hx : x = addr ∨ x = addr + len - 1) :
    eraseOf r.page (x - x % r.page) ∈
      (Request.write (some fun _ => 0xFF)).calls devices addr len s := by
  change _ ∈ callLog devices addr (some fun _ => 0xFF) len s
  rw [callLog_eq_walk hfind hpaged (d := blankPages r.page (Nat.pos_of_ne_zero hpaged)) rfl hlen]
  exact (walk_erases len addr _ hlen hwrap).2 x hx

theorem lookupExact_of_fits {devices : List (Device σ)} {addr len : Nat}
    (hfit : ∀ dev ∈ devices, dev.base + dev.size < 2 ^ 32) (haddr : addr < 2 ^ 32)
    (hlen : len < 2 ^ 32) (h : RangeFits (devices.map Device.region) addr len) :
    LookupExact devices addr len := by
  have hfound := (findDevice_eq_iff hfit haddr hlen).mpr
    (h.no_alias.imp_right List.forall_mem_map.mp)
  refine ⟨hfound, fun q s e he => ?_⟩
  cases hfind : tlkStorageFindDevice devices addr len with
  | none =>
    rw [calls_of_none hfind] at he
    exact absurd he List.not_mem_nil
  | some dev =>
    have hexact := hfound.symm.trans hfind
    have hholds := List.find?_some (p := fun dev : Device σ => dev.region.holds addr len) hexact
    have hregion : (devices.map Device.region).find? (fun r => r.holds addr len) =
        some dev.region := by
      rw [List.find?_map]
      exact congrArg (Option.map Device.region) hexact
    exact ⟨dev, rfl, calls_inside (hfit dev (List.mem_of_find?_eq_some hexact)) hfind hholds
      (h.pages_inside dev.region hregion) q s e he⟩

/-- Blank devices show every way in which the lookup and the calls can go wrong. -/
theorem rangeFits_of_blank {regions : List Region} {addr len : Nat}
    (hfit : ∀ r ∈ regions, r.base + r.size < 2 ^ 32) (haddr : addr < 2 ^ 32)
    (hlen : len < 2 ^ 32) (h : LookupExact (regions.map blankDevice) addr len) :
    RangeFits regions addr len := by
  have hfound := (findDevice_eq_iff (List.forall_mem_map.mpr hfit) haddr hlen).mp h.found
  refine ⟨hfound.imp_right List.forall_mem_map.mp, fun r hr hpaged hne => ?_⟩
  have hfind : tlkStorageFindDevice (regions.map blankDevice) addr len = some (blankDevice r) := by
    rw [h.found, List.find?_map]
    exact congrArg (Option.map blankDevice) hr
  obtain ⟨-, hhi⟩ := Region.holds_iff.mp
    (List.find?_some (p := fun r : Region => r.holds addr len) hr)
  have hend := hfit r (List.mem_of_find?_eq_some hr)
  have hinside : ∀ x, x = addr ∨ x = addr + len - 1 →
      r.base ≤ x - x % r.page ∧ x - x % r.page + r.page ≤ r.base + r.size := by
    intro x hx
    obtain ⟨dev, hdev, hholds⟩ := h.calls_inside _ ⟨(), fun _ _ => 0⟩ _
      (blank_erases hfind hpaged hne (by omega) _ hx)
    obtain rfl := Option.some.inj (hfind.symm.trans hdev)
    exact Region.holds_iff.mp hholds
  exact ⟨(hinside addr (Or.inl rfl)).1, (hinside _ (Or.inr rfl)).2⟩

/-- **The lookup is exact, and no callback gets a range that leaves its device, exactly when the
range does not wrap into the reach of a device and the pages it meets lie in the device that
holds it.** The numbers of the devices are given; their callbacks and contents are arbitrary. -/
theorem lookup_exact_iff {regions : List Region} {addr len : Nat}
    (hfit : ∀ r ∈ regions, r.base + r.size < 2 ^ 32) (haddr : addr < 2 ^ 32)
    (hlen : len < 2 ^ 32) :
    (∀ (σ : Type) (devices : List (Device σ)), devices.map Device.region = regions →
      LookupExact devices addr len) ↔ RangeFits regions addr len := by
  constructor
  · intro h
    exact rangeFits_of_blank hfit haddr hlen (h Unit _ (blankDevice_region regions))
  · rintro hfits σ devices rfl
    exact lookupExact_of_fits (List.forall_mem_map.mp hfit) haddr hlen hfits

/-- On devices made of whole pages only the wrap matters. -/
theorem rangeFits_of_aligned {regions : List Region} {addr len : Nat}
    (haligned : ∀ r ∈ regions, r.page ≠ 0 → r.base % r.page = 0 ∧ r.size % r.page = 0)
    (h : addr + len < 2 ^ 32 ∨
      ∀ r ∈ regions, r.base ≤ addr → r.base + r.size < addr + len - 2 ^ 32) :
    RangeFits regions addr len := by
  refine ⟨h, fun r hr hpaged hlen => ?_⟩
  obtain ⟨hbase, hsize⟩ := haligned r (List.mem_of_find?_eq_some hr) hpaged
  obtain ⟨hlo, hhi⟩ := Region.holds_iff.mp
    (List.find?_some (p := fun r : Region => r.holds addr len) hr)
  have hend : (r.base + r.size) % r.page = 0 := by rw [Nat.add_mod, hbase, hsize, Nat.zero_mod]
  exact ⟨le_blockStart hbase hlo, blockEnd_le hend (by omega)⟩

/-- Thirty-two bytes across two pages of a flash of 512 KiB. -/
theorem lookup_exact_across_pages :
    LookupExact [blankDevice ⟨0x20000000, 0x80000, 0x1000⟩] 0x20000FF0 0x20 :=
  (@lookup_exact_iff [⟨0x20000000, 0x80000, 0x1000⟩] 0x20000FF0 0x20 (by decide) (by decide)
    (by decide)).mpr (rangeFits_of_aligned (by decide) (Or.inl (by decide))) Unit _ rfl

/-- A range of all but two bytes of the address space, from the fifth byte of the flash on, wraps
to an end inside the flash: the lookup finds the device although no device holds the range, and
the read callback gets all of it. -/
theorem wrapped_range_found :
    (tlkStorageFindDevice [blankDevice ⟨0x20000000, 0x80000, 0x1000⟩]
      0x20000004 0xFFFFFFFE).isSome = true ∧
    ([blankDevice ⟨0x20000000, 0x80000, 0x1000⟩].find?
      fun dev => dev.region.holds 0x20000004 0xFFFFFFFE).isSome = false ∧
    (Request.read true).calls [blankDevice ⟨0x20000000, 0x80000, 0x1000⟩] 0x20000004 0xFFFFFFFE
      ⟨(), fun _ _ => 0⟩ = [⟨.read, 0x20000004, 0xFFFFFFFE, 0⟩] ∧
    ¬ LookupExact [blankDevice ⟨0x20000000, 0x80000, 0x1000⟩] 0x20000004 0xFFFFFFFE := by
  refine ⟨by decide, by decide, by decide, fun h => ?_⟩
  exact absurd (congrArg Option.isSome h.found) (by decide)

end UniSdk.Storage
