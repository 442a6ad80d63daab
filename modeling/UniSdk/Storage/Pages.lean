import UniSdk.Storage.Device

/-!
# The page walk

`tlk_storage_modify_pages` and the three entry points of `storage.c`, statement
by statement. A null `buf` is `none`; `buf` advances with the walk. `andThen`
is the source's `if (result) break;`.
-/

namespace UniSdk.Storage

open Library.Cells Library.Words

variable {σ : Type}

/-- The world and the contents of `dev->buffer` during one walk. -/
structure Walk (σ : Type) where
  world : σ
  buffer : Nat → Byte

/-- Go on only if the result so far is zero. -/
def andThen {α : Type} (r : Int × α) (next : α → Int × α) : Int × α :=
  if r.1 ≠ 0 then r else next r.2

theorem andThen_of_zero {α : Type} {r : Int × α} (h : r.1 = 0) (next : α → Int × α) :
    andThen r next = next r.2 := by simp [andThen, h]

/-- `dev->read(dev, addr, &dev->buffer[pos], len)` -/
def readInto (d : Pages σ) (addr pos len : Nat) (s : Walk σ) : Int × Walk σ :=
  let r := d.read addr len s.world
  (r.1, { world := r.2.2, buffer := overwrite s.buffer pos len r.2.1 })

def writeFrom (d : Pages σ) (addr : Nat) (data : Nat → Byte) (len : Nat) (s : Walk σ) :
    Int × Walk σ :=
  let r := d.write addr data len s.world
  (r.1, { s with world := r.2 })

def eraseAt (d : Pages σ) (addr : Nat) (s : Walk σ) : Int × Walk σ :=
  let r := d.erase addr d.page s.world
  (r.1, { s with world := r.2 })

/-- The byte that is to stand at offset `i` of the request. -/
def newByte (cleanByte : Byte) (buf : Option (Nat → Byte)) (i : Nat) : Byte :=
  match buf with
  | some b => b i
  | none => cleanByte

/-- The early-exit scan that computes `no_erase` and `same_data`; the first
argument is `page_len - i`. -/
def scan (bt_old bt_new : Nat → Byte) : Nat → Nat → Bool → Bool → Bool × Bool
  | 0, _, noErase, sameData => (noErase, sameData)
  | rest + 1, i, noErase, sameData =>
    if noErase || sameData then
      scan bt_old bt_new rest (i + 1)
        (noErase && (bt_new i &&& ~~~bt_old i) == 0)
        (sameData && bt_old i == bt_new i)
    else (noErase, sameData)

/-- The loop that counts `head_clean` and `tail_clean`; the first argument is
`page - i`. -/
def trim (cleanByte : Byte) (page : Nat) (buffer : Nat → Byte) :
    Nat → Nat → Nat → Nat → Bool → Bool → Nat × Nat
  | 0, _, headClean, tailClean, _, _ => (headClean, tailClean)
  | rest + 1, i, headClean, tailClean, headCount, tailCount =>
    if headCount || tailCount then
      let headCount := headCount && buffer i == cleanByte
      let tailCount := tailCount && buffer (page - 1 - i) == cleanByte
      let headClean := if headCount then headClean + 1 else headClean
      let tailClean := if tailCount then tailClean + 1 else tailClean
      if page ≤ headClean + tailClean then (headClean, tailClean)
      else trim cleanByte page buffer rest (i + 1) headClean tailClean headCount tailCount
    else (headClean, tailClean)

/-- After the erase: write the page back without its clean head and tail. -/
def restorePage (d : Pages σ) (pageAddr : Nat) (s : Walk σ) : Int × Walk σ :=
  let c := trim d.cleanByte d.page s.buffer d.page 0 0 0 true true
  if c.1 + c.2 < d.page then
    writeFrom d (u32 (pageAddr + c.1)) (fun i => s.buffer (c.1 + i)) (d.page - c.1 - c.2) s
  else (0, s)

/-- The branch of a page that needs an erase: read the head, merge the new
bytes, read the tail, erase, write back. -/
def rebuildPage (d : Pages σ) (addr : Nat) (buf : Option (Nat → Byte)) (pageOffset pageLen : Nat)
    (s : Walk σ) : Int × Walk σ :=
  let head := if pageOffset ≠ 0 then readInto d (addr - pageOffset) 0 pageOffset s else (0, s)
  andThen head fun s =>
  let s := { s with buffer := overwrite s.buffer pageOffset pageLen (newByte d.cleanByte buf) }
  let tail :=
    if pageOffset + pageLen < d.page then
      readInto d (u32 (addr + pageLen)) (pageOffset + pageLen) (d.page - (pageOffset + pageLen)) s
    else (0, s)
  andThen tail fun s =>
  andThen (eraseAt d (addr - pageOffset) s) fun s =>
  restorePage d (addr - pageOffset) s

/-- The body of the page loop. -/
def modifyPage (d : Pages σ) (addr : Nat) (buf : Option (Nat → Byte)) (pageOffset pageLen : Nat)
    (s : Walk σ) : Int × Walk σ :=
  andThen (readInto d addr pageOffset pageLen s) fun s =>
  let c := scan (fun i => s.buffer (pageOffset + i)) (newByte d.cleanByte buf) pageLen 0 true true
  if c.2 then (0, s)
  else if c.1 then
    match buf with
    | some b => writeFrom d addr b pageLen s
    | none => (0, s)
  else rebuildPage d addr buf pageOffset pageLen s

/-- `tlk_storage_modify_pages` -/
def tlkStorageModifyPages (d : Pages σ) (addr : Nat) (buf : Option (Nat → Byte)) (len : Nat)
    (s : Walk σ) : Int × Walk σ :=
  if len = 0 then (0, s)
  else
    let pageOffset := addr % d.page
    let pageLen := min len (d.page - pageOffset)
    andThen (modifyPage d addr buf pageOffset pageLen s) fun s =>
    tlkStorageModifyPages d (u32 (addr + pageLen)) (buf.map fun b i => b (pageLen + i))
      (len - pageLen) s
termination_by len
decreasing_by
  have := Nat.mod_lt addr d.page_pos
  omega

/-- The page walk on a device's own buffer. -/
def walkDevice (dev : Device σ) (d : Pages σ) (addr : Nat) (buf : Option (Nat → Byte)) (len : Nat)
    (s : State σ) : Int × State σ :=
  let r := tlkStorageModifyPages d addr buf len { world := s.world, buffer := s.buffer dev.id }
  (r.1, { world := r.2.world, buffer := Function.update s.buffer dev.id r.2.buffer })

/-- `tlk_storage_read`. A null `buf` is `dst = false`; the bytes delivered come
with the result. -/
def tlkStorageRead (devices : List (Device σ)) (addr : Nat) (dst : Bool) (len : Nat)
    (s : State σ) : Int × (Nat → Byte) × State σ :=
  if !dst || len = 0 then (-EINVAL, fun _ => 0, s)
  else
    match tlkStorageFindDevice devices addr len with
    | none => (-ENODEV, fun _ => 0, s)
    | some dev =>
      match dev.read with
      | none => (-ENOSYS, fun _ => 0, s)
      | some read =>
        let r := read addr len s.world
        (r.1, r.2.1, { s with world := r.2.2 })

/-- The unpaged erase loop: chunks of clean bytes out of `dev->buffer`. -/
def cleanChunks (write : WriteCallback σ) (buffer : Nat → Byte) (addr len : Nat) (w : σ) :
    Int × σ :=
  if len = 0 then (0, w)
  else
    let tmpLen := min len STORAGE_DEVICE_DEFAULT_BUFFER_SIZE
    andThen (write addr buffer tmpLen w) fun w =>
    cleanChunks write buffer (u32 (addr + tmpLen)) (len - tmpLen) w
termination_by len
decreasing_by
  simp only [STORAGE_DEVICE_DEFAULT_BUFFER_SIZE]
  omega

/-- `tlk_storage_erase` -/
def tlkStorageErase (devices : List (Device σ)) (addr len : Nat) (s : State σ) :
    Int × State σ :=
  if len = 0 then (-EINVAL, s)
  else
    match tlkStorageFindDevice devices addr len with
    | none => (-ENODEV, s)
    | some dev =>
      if h : dev.page = 0 then
        match dev.write, dev.hasBuffer with
        | some write, true =>
          let buffer := overwrite (s.buffer dev.id) 0
            (min len STORAGE_DEVICE_DEFAULT_BUFFER_SIZE) fun _ => dev.cleanByte
          let r := cleanChunks write buffer addr len s.world
          (r.1, { s.setBuffer dev.id buffer with world := r.2 })
        | _, _ => (-ENOSYS, s)
      else
        match dev.pages? h with
        | none => (-ENOSYS, s)
        | some d => walkDevice dev d addr none len s

/-- `tlk_storage_write` -/
def tlkStorageWrite (devices : List (Device σ)) (addr : Nat) (buf : Option (Nat → Byte))
    (len : Nat) (s : State σ) : Int × State σ :=
  match buf with
  | none => (-EINVAL, s)
  | some b =>
    if len = 0 then (-EINVAL, s)
    else
      match tlkStorageFindDevice devices addr len with
      | none => (-ENODEV, s)
      | some dev =>
        if h : dev.page = 0 then
          match dev.write with
          | none => (-ENOSYS, s)
          | some write =>
            let r := write addr b len s.world
            (r.1, { s with world := r.2 })
        else
          match dev.pages? h with
          | none => (-ENOSYS, s)
          | some d => walkDevice dev d addr (some b) len s

end UniSdk.Storage
