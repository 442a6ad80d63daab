import UniSdk.Storage.Trace
import UniSdk.Storage.Write

/-!
# The contract of `storage_device.h`

What a paged device is called with follows from the trace of one page. The buffer is the
business of the storage layer itself: below stands `storage.c` once more, with every access to
`dev->buffer` checked against the size the buffer is defined with and no result where an access
misses it. The checked code always has a result, the one of the code without checks.
-/

namespace UniSdk.Storage

open Library.Cells Library.Aligned Library.Words

variable {σ : Type}

/-! ### `storage.c` with checked accesses -/

/-- The size of the array that `TLK_STORAGE_DEFINE_DEVICE` defines. -/
def Device.bufferSize (dev : Device σ) : Nat :=
  if dev.page = 0 then STORAGE_DEVICE_DEFAULT_BUFFER_SIZE else dev.page

/-- An access to `[pos, pos+len)`, all of it below `bound`. -/
def accessing {α : Type} (bound pos len : Nat) (r : α) : Option α :=
  if pos + len ≤ bound then some r else none

/-- `andThen` where either part may have made a bad access. -/
def andThenChecked {α : Type} (r : Option (Int × α)) (next : α → Option (Int × α)) :
    Option (Int × α) :=
  match r with
  | some r => if r.1 ≠ 0 then some r else next r.2
  | none => none

/-- `scan` over `buffer[off]`, `buffer[off + 1]`, … -/
def scanChecked (bound off : Nat) (buffer bt_new : Nat → Byte) :
    Nat → Nat → Bool → Bool → Option (Bool × Bool)
  | 0, _, noErase, sameData => some (noErase, sameData)
  | rest + 1, i, noErase, sameData =>
    if noErase || sameData then
      if off + i < bound then
        scanChecked bound off buffer bt_new rest (i + 1)
          (noErase && (bt_new i &&& ~~~buffer (off + i)) == 0)
          (sameData && buffer (off + i) == bt_new i)
      else none
    else some (noErase, sameData)

/-- `trim`: every round reads `buffer[i]` and `buffer[page - 1 - i]`. -/
def trimChecked (bound : Nat) (cleanByte : Byte) (page : Nat) (buffer : Nat → Byte) :
    Nat → Nat → Nat → Nat → Bool → Bool → Option (Nat × Nat)
  | 0, _, headClean, tailClean, _, _ => some (headClean, tailClean)
  | rest + 1, i, headClean, tailClean, headCount, tailCount =>
    if headCount || tailCount then
      if i < bound ∧ page - 1 - i < bound then
        let headCount := headCount && buffer i == cleanByte
        let tailCount := tailCount && buffer (page - 1 - i) == cleanByte
        let headClean := if headCount then headClean + 1 else headClean
        let tailClean := if tailCount then tailClean + 1 else tailClean
        if page ≤ headClean + tailClean then some (headClean, tailClean)
        else trimChecked bound cleanByte page buffer rest (i + 1) headClean tailClean headCount
          tailCount
      else none
    else some (headClean, tailClean)

def restorePageChecked (d : Pages σ) (bound pageAddr : Nat) (s : Walk σ) :
    Option (Int × Walk σ) :=
  match trimChecked bound d.cleanByte d.page s.buffer d.page 0 0 0 true true with
  | none => none
  | some c =>
    if c.1 + c.2 < d.page then
      accessing bound c.1 (d.page - c.1 - c.2)
        (writeFrom d (u32 (pageAddr + c.1)) (fun i => s.buffer (c.1 + i)) (d.page - c.1 - c.2) s)
    else some (0, s)

def rebuildPageChecked (d : Pages σ) (bound addr : Nat) (buf : Option (Nat → Byte))
    (pageOffset pageLen : Nat) (s : Walk σ) : Option (Int × Walk σ) :=
  let head :=
    if pageOffset ≠ 0 then
      accessing bound 0 pageOffset (readInto d (addr - pageOffset) 0 pageOffset s)
    else some (0, s)
  andThenChecked head fun s =>
  match accessing bound pageOffset pageLen
    { s with buffer := overwrite s.buffer pageOffset pageLen (newByte d.cleanByte buf) } with
  | none => none
  | some s =>
  let tail :=
    if pageOffset + pageLen < d.page then
      accessing bound (pageOffset + pageLen) (d.page - (pageOffset + pageLen))
        (readInto d (u32 (addr + pageLen)) (pageOffset + pageLen)
          (d.page - (pageOffset + pageLen)) s)
    else some (0, s)
  andThenChecked tail fun s =>
  andThenChecked (some (eraseAt d (addr - pageOffset) s)) fun s =>
  restorePageChecked d bound (addr - pageOffset) s

def modifyPageChecked (d : Pages σ) (bound addr : Nat) (buf : Option (Nat → Byte))
    (pageOffset pageLen : Nat) (s : Walk σ) : Option (Int × Walk σ) :=
  andThenChecked (accessing bound pageOffset pageLen (readInto d addr pageOffset pageLen s))
    fun s =>
  match scanChecked bound pageOffset s.buffer (newByte d.cleanByte buf) pageLen 0 true true with
  | none => none
  | some c =>
    if c.2 then some (0, s)
    else if c.1 then
      match buf with
      | some b => some (writeFrom d addr b pageLen s)
      | none => some (0, s)
    else rebuildPageChecked d bound addr buf pageOffset pageLen s

def tlkStorageModifyPagesChecked (d : Pages σ) (bound addr : Nat) (buf : Option (Nat → Byte))
    (len : Nat) (s : Walk σ) : Option (Int × Walk σ) :=
  if len = 0 then some (0, s)
  else
    let pageOffset := addr % d.page
    let pageLen := min len (d.page - pageOffset)
    andThenChecked (modifyPageChecked d bound addr buf pageOffset pageLen s) fun s =>
    tlkStorageModifyPagesChecked d bound (u32 (addr + pageLen))
      (buf.map fun b i => b (pageLen + i)) (len - pageLen) s
termination_by len
decreasing_by
  have := Nat.mod_lt addr d.page_pos
  omega

def walkDeviceChecked (dev : Device σ) (d : Pages σ) (addr : Nat) (buf : Option (Nat → Byte))
    (len : Nat) (s : State σ) : Option (Int × State σ) :=
  match tlkStorageModifyPagesChecked d dev.bufferSize addr buf len
    { world := s.world, buffer := s.buffer dev.id } with
  | none => none
  | some r => some (r.1, { world := r.2.world, buffer := Function.update s.buffer dev.id r.2.buffer })

/-- The chunks of the unpaged erase: each write reads `tmp_len` bytes of the buffer. -/
def cleanChunksChecked (write : WriteCallback σ) (bound : Nat) (buffer : Nat → Byte)
    (addr len : Nat) (w : σ) : Option (Int × σ) :=
  if len = 0 then some (0, w)
  else
    let tmpLen := min len STORAGE_DEVICE_DEFAULT_BUFFER_SIZE
    andThenChecked (accessing bound 0 tmpLen (write addr buffer tmpLen w)) fun w =>
    cleanChunksChecked write bound buffer (u32 (addr + tmpLen)) (len - tmpLen) w
termination_by len
decreasing_by
  simp only [STORAGE_DEVICE_DEFAULT_BUFFER_SIZE]
  omega

def tlkStorageEraseChecked (devices : List (Device σ)) (addr len : Nat) (s : State σ) :
    Option (Int × State σ) :=
  if len = 0 then some (-EINVAL, s)
  else
    match tlkStorageFindDevice devices addr len with
    | none => some (-ENODEV, s)
    | some dev =>
      if h : dev.page = 0 then
        match dev.write, dev.hasBuffer with
        | some write, true =>
          match accessing dev.bufferSize 0 (min len STORAGE_DEVICE_DEFAULT_BUFFER_SIZE)
            (overwrite (s.buffer dev.id) 0 (min len STORAGE_DEVICE_DEFAULT_BUFFER_SIZE)
              fun _ => dev.cleanByte) with
          | none => none
          | some buffer =>
            match cleanChunksChecked write dev.bufferSize buffer addr len s.world with
            | none => none
            | some r => some (r.1, { s.setBuffer dev.id buffer with world := r.2 })
        | _, _ => some (-ENOSYS, s)
      else
        match dev.pages? h with
        | none => some (-ENOSYS, s)
        | some d => walkDeviceChecked dev d addr none len s

def tlkStorageWriteChecked (devices : List (Device σ)) (addr : Nat) (buf : Option (Nat → Byte))
    (len : Nat) (s : State σ) : Option (Int × State σ) :=
  match buf with
  | none => some (-EINVAL, s)
  | some b =>
    if len = 0 then some (-EINVAL, s)
    else
      match tlkStorageFindDevice devices addr len with
      | none => some (-ENODEV, s)
      | some dev =>
        if h : dev.page = 0 then
          match dev.write with
          | none => some (-ENOSYS, s)
          | some write =>
            let r := write addr b len s.world
            some (r.1, { s with world := r.2 })
        else
          match dev.pages? h with
          | none => some (-ENOSYS, s)
          | some d => walkDeviceChecked dev d addr (some b) len s

/-! ### No access misses the buffer -/

theorem accessing_eq {α : Type} {bound pos len : Nat} (h : pos + len ≤ bound) (r : α) :
    accessing bound pos len r = some r := if_pos h

theorem andThenChecked_some {α : Type} {r : Option (Int × α)} {r' : Int × α}
    {next : α → Option (Int × α)} {next' : α → Int × α} (hr : r = some r')
    (h : ∀ s, next s = some (next' s)) : andThenChecked r next = some (andThen r' next') := by
  subst hr
  simp only [andThenChecked, andThen]
  split
  · rfl
  · exact h _

theorem scanChecked_eq {bound off : Nat} (buffer new : Nat → Byte) :
    ∀ (rest i : Nat) (n s : Bool), off + i + rest ≤ bound →
      scanChecked bound off buffer new rest i n s =
        some (scan (fun i => buffer (off + i)) new rest i n s) := by
  intro rest
  induction rest with
  | zero => exact fun _ _ _ _ => rfl
  | succ rest ih =>
    intro i n s hbound
    rw [scanChecked, scan]
    split
    · rw [if_pos (by omega), ih _ _ _ (by omega)]
    · rfl

theorem trimChecked_eq {bound page : Nat} (hpage : page ≤ bound) (clean : Byte)
    (buffer : Nat → Byte) : ∀ (rest i h t : Nat) (hc tc : Bool), i + rest ≤ page →
      trimChecked bound clean page buffer rest i h t hc tc =
        some (trim clean page buffer rest i h t hc tc) := by
  intro rest
  induction rest with
  | zero => exact fun _ _ _ _ _ _ => rfl
  | succ rest ih =>
    intro i h t hc tc hle
    rw [trimChecked, trim]
    split
    · rw [if_pos (by omega)]
      dsimp only
      rw [ih (i + 1) _ _ _ _ (by omega)]
      exact (apply_ite some _ _ _).symm
    · rfl

section Checked

variable (d : Pages σ)

theorem restorePageChecked_eq (start : Nat) (s : Walk σ) :
    restorePageChecked d d.page start s = some (restorePage d start s) := by
  unfold restorePageChecked restorePage
  rw [trimChecked_eq (Nat.le_refl _) _ _ _ _ _ _ _ _ (by omega)]
  dsimp only
  split
  · exact accessing_eq (by omega) _
  · rfl

theorem rebuildPageChecked_eq (addr : Nat) (buf : Option (Nat → Byte)) {off len : Nat}
    (hlen : off + len ≤ d.page) (s : Walk σ) :
    rebuildPageChecked d d.page addr buf off len s = some (rebuildPage d addr buf off len s) := by
  unfold rebuildPageChecked rebuildPage
  refine andThenChecked_some ?_ fun s => ?_
  · split
    · exact accessing_eq (by omega) _
    · rfl
  rw [accessing_eq hlen]
  dsimp only
  refine andThenChecked_some ?_ fun s => ?_
  · split
    · exact accessing_eq (by omega) _
    · rfl
  exact andThenChecked_some rfl fun s => restorePageChecked_eq d _ s

theorem modifyPageChecked_eq (addr : Nat) (buf : Option (Nat → Byte)) {off len : Nat}
    (hlen : off + len ≤ d.page) (s : Walk σ) :
    modifyPageChecked d d.page addr buf off len s = some (modifyPage d addr buf off len s) := by
  unfold modifyPageChecked modifyPage
  refine andThenChecked_some (accessing_eq hlen _) fun s => ?_
  rw [scanChecked_eq _ _ _ _ _ _ (by omega)]
  dsimp only
  split
  · rfl
  · split
    · cases buf <;> rfl
    · exact rebuildPageChecked_eq d addr buf hlen s

theorem walkChecked_eq (len : Nat) : ∀ (addr : Nat) (buf : Option (Nat → Byte)) (s : Walk σ),
    tlkStorageModifyPagesChecked d d.page addr buf len s =
      some (tlkStorageModifyPages d addr buf len s) := by
  induction len using Nat.strong_induction_on with
  | h len ih =>
    intro addr buf s
    by_cases hl : len = 0
    · rw [tlkStorageModifyPagesChecked, if_pos hl, tlkStorageModifyPages, if_pos hl]
    · obtain ⟨hn, hpage, -⟩ := pageLen_bounds addr d.page_pos hl
      rw [tlkStorageModifyPagesChecked, if_neg hl, tlkStorageModifyPages, if_neg hl]
      refine andThenChecked_some (modifyPageChecked_eq d addr buf hpage s) fun s => ?_
      exact ih _ (Nat.sub_lt (Nat.pos_of_ne_zero hl) hn) _ _ s

end Checked

theorem cleanChunksChecked_eq (write : WriteCallback σ) (buffer : Nat → Byte) (len : Nat) :
    ∀ (addr : Nat) (w : σ),
      cleanChunksChecked write STORAGE_DEVICE_DEFAULT_BUFFER_SIZE buffer addr len w =
        some (cleanChunks write buffer addr len w) := by
  induction len using Nat.strong_induction_on with
  | h len ih =>
    intro addr w
    by_cases hl : len = 0
    · rw [cleanChunksChecked, if_pos hl, cleanChunks, if_pos hl]
    · rw [cleanChunksChecked, if_neg hl, cleanChunks, if_neg hl]
      refine andThenChecked_some (accessing_eq (by omega) _) fun w => ?_
      refine ih _ (Nat.sub_lt (Nat.pos_of_ne_zero hl) ?_) _ w
      simp only [STORAGE_DEVICE_DEFAULT_BUFFER_SIZE]
      omega

theorem walkDeviceChecked_eq {dev : Device σ} (h : dev.page ≠ 0) {d : Pages σ}
    (hd : dev.pages? h = some d) (addr : Nat) (buf : Option (Nat → Byte)) (len : Nat)
    (s : State σ) :
    walkDeviceChecked dev d addr buf len s = some (walkDevice dev d addr buf len s) := by
  have hsize : dev.bufferSize = d.page := by
    rw [Device.bufferSize, if_neg h, (pages?_fields hd).1]
  rw [walkDeviceChecked, hsize, walkChecked_eq]
  rfl

theorem tlkStorageWriteChecked_eq (devices : List (Device σ)) (addr : Nat)
    (buf : Option (Nat → Byte)) (len : Nat) (s : State σ) :
    tlkStorageWriteChecked devices addr buf len s =
      some (tlkStorageWrite devices addr buf len s) := by
  unfold tlkStorageWriteChecked tlkStorageWrite
  cases buf with
  | none => rfl
  | some b =>
    dsimp only
    split
    · rfl
    · cases tlkStorageFindDevice devices addr len with
      | none => rfl
      | some dev =>
        dsimp only
        split
        · cases dev.write <;> rfl
        · next hpaged =>
          cases hd : dev.pages? hpaged with
          | none => rfl
          | some d => exact walkDeviceChecked_eq hpaged hd addr _ len s

theorem tlkStorageEraseChecked_eq (devices : List (Device σ)) (addr len : Nat) (s : State σ) :
    tlkStorageEraseChecked devices addr len s = some (tlkStorageErase devices addr len s) := by
  unfold tlkStorageEraseChecked tlkStorageErase
  split
  · rfl
  · cases tlkStorageFindDevice devices addr len with
    | none => rfl
    | some dev =>
      dsimp only
      split
      · next hunpaged =>
        have hsize : dev.bufferSize = STORAGE_DEVICE_DEFAULT_BUFFER_SIZE := if_pos hunpaged
        cases dev.write with
        | none => rfl
        | some write =>
          cases dev.hasBuffer with
          | false => rfl
          | true =>
            dsimp only
            rw [hsize, accessing_eq (by omega)]
            dsimp only
            rw [cleanChunksChecked_eq]
      · next hpaged =>
        cases hd : dev.pages? hpaged with
        | none => rfl
        | some d => exact walkDeviceChecked_eq hpaged hd addr none len s

/-! ### What the device is asked for -/

/-- What `storage_device.h` lets a paged device be called with. -/
def CallOk (dev : Device σ) (e : Event) : Prop :=
  match e.callback with
  | .erase => e.addr % dev.page = 0 ∧ dev.base ≤ e.addr ∧
      e.addr + e.len ≤ dev.base + dev.size ∧ e.len = dev.page
  | .write => 0 < e.len ∧ dev.base ≤ e.addr ∧ e.addr + e.len ≤ dev.base + dev.size ∧
      e.addr % dev.page + e.len ≤ dev.page
  | .read => 0 < e.len ∧ dev.base ≤ e.addr ∧ e.addr + e.len ≤ dev.base + dev.size

theorem callOk_of_rangeCall {dev : Device σ} {addr len : Nat} {e : Event}
    (h : RangeCall dev.page dev.base (dev.base + dev.size) addr len e) : CallOk dev e := by
  obtain ⟨start, halign, hlo, hhi, -, -, hlow, hpos, hhigh, hwhole⟩ := h
  unfold CallOk
  split
  · next herase =>
    obtain ⟨haddr, hlen⟩ := hwhole herase
    rw [haddr, hlen]
    exact ⟨halign, hlo, hhi, rfl⟩
  · have hoff : e.addr % dev.page = e.addr - start := by
      have hsplit : e.addr = start + (e.addr - start) := by omega
      rw [hsplit, Nat.add_mod, halign, Nat.zero_add, Nat.mod_mod, Nat.mod_eq_of_lt (by omega)]
      omega
    exact ⟨hpos, by omega, by omega, by omega⟩
  · exact ⟨hpos, by omega, by omega⟩

theorem paged_calls_ok {devices : List (Device σ)} {dev : Device σ} {addr len : Nat}
    (hfind : tlkStorageFindDevice devices addr len = some dev) (hpaged : dev.page ≠ 0)
    (hbase : dev.base % dev.page = 0) (hsize : dev.size % dev.page = 0)
    (hwrap : dev.base + dev.size ≤ 2 ^ 32) (hlo : dev.base ≤ addr)
    (hhi : addr + len ≤ dev.base + dev.size) (buf : Option (Nat → Byte)) (s : State σ) :
    ∀ e ∈ callLog devices addr buf len s, CallOk dev e := by
  rcases tracedUpdate_cases hfind hpaged buf s with hnone | ⟨d, hd, -, hlog⟩
  · rw [hnone]
    exact fun _ h => nomatch h
  · obtain ⟨hp, -⟩ := pages?_fields hd
    have hend : (dev.base + dev.size) % dev.page = 0 := by
      rw [Nat.add_mod, hbase, hsize, Nat.zero_mod]
    rw [← hp] at hbase hend
    obtain ⟨calls, hcalls, hok, -⟩ := walk_ran d hwrap hbase hend len addr buf
      ⟨(s.world, []), s.buffer dev.id⟩ hlo hhi
    rw [hlog, hcalls, hp] at *
    exact fun e he => callOk_of_rangeCall (hok e he)

/-- **The storage layer keeps the device contract.** Every call of a write or an erase inside a
paged device is one the header allows, and no write or erase on any device, paged or not,
touches a buffer outside its bounds. -/
theorem device_contract (σ : Type) :
    (∀ (devices : List (Device σ)) (dev : Device σ) (addr len : Nat),
      tlkStorageFindDevice devices addr len = some dev → dev.page ≠ 0 →
      dev.base % dev.page = 0 → dev.size % dev.page = 0 → dev.base + dev.size ≤ 2 ^ 32 →
      dev.base ≤ addr →
      addr + len ≤ dev.base + dev.size → ∀ (buf : Option (Nat → Byte)) (s : State σ),
        ∀ e ∈ callLog devices addr buf len s, CallOk dev e) ∧
    (∀ (devices : List (Device σ)) (addr : Nat) (buf : Option (Nat → Byte)) (len : Nat)
      (s : State σ), tlkStorageWriteChecked devices addr buf len s =
        some (tlkStorageWrite devices addr buf len s)) ∧
    ∀ (devices : List (Device σ)) (addr len : Nat) (s : State σ),
      tlkStorageEraseChecked devices addr len s = some (tlkStorageErase devices addr len s) :=
  ⟨fun _ _ _ _ hfind hpaged hbase hsize hwrap hlo hhi =>
      paged_calls_ok hfind hpaged hbase hsize hwrap hlo hhi,
    tlkStorageWriteChecked_eq, tlkStorageEraseChecked_eq⟩

/-- Five bytes across the boundary of two pages of four, the first page to be erased. -/
theorem device_contract_across_pages :
    ∀ e ∈ callLog [memoryDevice 0 16 4 0xFF] 2 (some fun i => UInt8.ofNat i) 5
      ⟨fun _ => 0, fun _ _ => 7⟩, CallOk (memoryDevice 0 16 4 0xFF) e :=
  (device_contract (Nat → Byte)).1 _ _ 2 5
    (findDevice_of_only (onlyCover_singleton _ 2 5) (by decide)) (by decide) (by decide)
    (by decide) (by decide) (by decide) (by decide) _ _

end UniSdk.Storage
