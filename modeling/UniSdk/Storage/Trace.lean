import UniSdk.Library.CallLog
import UniSdk.Storage.Frame
import UniSdk.Storage.WalkSpec

/-!
# The calls a storage operation makes

A device is traced by letting its callbacks note every call and its result beside the world. The
storage layer does not see the difference, so a run on traced devices is the run on the devices
themselves together with the list of the calls made. One iteration of the page walk makes calls
for its own page only and stops at the first call that fails.
-/

namespace UniSdk.Storage

open Library.Cells Library.Aligned Library.Words Library.CallLog

variable {σ : Type}

inductive Callback
  | read
  | erase
  | write
  deriving DecidableEq, Repr

/-- One call of a callback: its address, its length and what it returned. -/
structure Event where
  callback : Callback
  addr : Nat
  len : Nat
  result : Int
  deriving DecidableEq, Repr

/-- A world with the calls made so far. -/
abbrev Traced (σ : Type) := σ × List Event

def ReadCallback.traced (f : ReadCallback σ) : ReadCallback (Traced σ) := fun addr len w =>
  let r := f addr len w.1
  (r.1, r.2.1, r.2.2, w.2 ++ [⟨.read, addr, len, r.1⟩])

def EraseCallback.traced (f : EraseCallback σ) : EraseCallback (Traced σ) := fun addr len w =>
  let r := f addr len w.1
  (r.1, r.2, w.2 ++ [⟨.erase, addr, len, r.1⟩])

def WriteCallback.traced (f : WriteCallback σ) : WriteCallback (Traced σ) :=
  fun addr data len w =>
    let r := f addr data len w.1
    (r.1, r.2, w.2 ++ [⟨.write, addr, len, r.1⟩])

def Device.traced (dev : Device σ) : Device (Traced σ) where
  id := dev.id
  base := dev.base
  size := dev.size
  page := dev.page
  cleanByte := dev.cleanByte
  read := dev.read.map ReadCallback.traced
  erase := dev.erase.map EraseCallback.traced
  write := dev.write.map WriteCallback.traced
  hasBuffer := dev.hasBuffer

def Pages.traced (d : Pages σ) : Pages (Traced σ) where
  page := d.page
  page_pos := d.page_pos
  cleanByte := d.cleanByte
  read := ReadCallback.traced d.read
  erase := EraseCallback.traced d.erase
  write := WriteCallback.traced d.write

@[simp] theorem Pages.traced_page (d : Pages σ) : d.traced.page = d.page := rfl

/-- A write, or, where there is no data, an erase. -/
def tlkStorageUpdate (devices : List (Device σ)) (addr : Nat) (buf : Option (Nat → Byte))
    (len : Nat) (s : State σ) : Int × State σ :=
  match buf with
  | some b => tlkStorageWrite devices addr (some b) len s
  | none => tlkStorageErase devices addr len s

/-- The run on the traced devices, from an empty log. -/
def tracedUpdate (devices : List (Device σ)) (addr : Nat) (buf : Option (Nat → Byte))
    (len : Nat) (s : State σ) : Int × State (Traced σ) :=
  tlkStorageUpdate (devices.map Device.traced) addr buf len ⟨(s.world, []), s.buffer⟩

/-- The calls made, in their order. -/
def callLog (devices : List (Device σ)) (addr : Nat) (buf : Option (Nat → Byte)) (len : Nat)
    (s : State σ) : List Event :=
  (tracedUpdate devices addr buf len s).2.world.2

/-! ### Tracing changes nothing -/

/-- A walk without its log. -/
def Walk.untraced (s : Walk (Traced σ)) : Walk σ := ⟨s.world.1, s.buffer⟩

def untraced (r : Int × Walk (Traced σ)) : Int × Walk σ := (r.1, r.2.untraced)

theorem untraced_andThen {r : Int × Walk (Traced σ)} {r' : Int × Walk σ}
    {next : Walk (Traced σ) → Int × Walk (Traced σ)} {next' : Walk σ → Int × Walk σ}
    (hr : untraced r = r') (h : ∀ s, untraced (next s) = next' s.untraced) :
    untraced (andThen r next) = andThen r' next' := by
  subst hr
  unfold andThen
  by_cases hr : r.1 ≠ 0
  · rw [if_pos hr, if_pos (show (untraced r).1 ≠ 0 from hr)]
  · rw [if_neg hr, if_neg (show ¬ (untraced r).1 ≠ 0 from hr)]
    exact h r.2

theorem untraced_ite {c : Prop} [Decidable c] {a b : Int × Walk (Traced σ)} {a' b' : Int × Walk σ}
    (ha : untraced a = a') (hb : untraced b = b') :
    untraced (if c then a else b) = if c then a' else b' := by
  rw [apply_ite untraced, ha, hb]

section Untraced

variable (d : Pages σ)

theorem untraced_restorePage (start : Nat) (s : Walk (Traced σ)) :
    untraced (restorePage d.traced start s) = restorePage d start s.untraced := by
  unfold restorePage
  exact untraced_ite rfl rfl

theorem untraced_rebuildPage (addr : Nat) (buf : Option (Nat → Byte)) (pageOffset pageLen : Nat)
    (s : Walk (Traced σ)) :
    untraced (rebuildPage d.traced addr buf pageOffset pageLen s) =
      rebuildPage d addr buf pageOffset pageLen s.untraced := by
  unfold rebuildPage
  refine untraced_andThen (untraced_ite rfl rfl) fun s => ?_
  refine untraced_andThen (untraced_ite rfl rfl) fun s => ?_
  exact untraced_andThen rfl fun s => untraced_restorePage d _ s

theorem untraced_modifyPage (addr : Nat) (buf : Option (Nat → Byte)) (pageOffset pageLen : Nat)
    (s : Walk (Traced σ)) :
    untraced (modifyPage d.traced addr buf pageOffset pageLen s) =
      modifyPage d addr buf pageOffset pageLen s.untraced := by
  unfold modifyPage
  refine untraced_andThen rfl fun s => ?_
  refine untraced_ite rfl (untraced_ite ?_ (untraced_rebuildPage d addr buf pageOffset pageLen s))
  cases buf <;> rfl

theorem untraced_walk (len : Nat) : ∀ (addr : Nat) (buf : Option (Nat → Byte))
    (s : Walk (Traced σ)), untraced (tlkStorageModifyPages d.traced addr buf len s) =
      tlkStorageModifyPages d addr buf len s.untraced := by
  induction len using Nat.strong_induction_on with
  | h len ih =>
    intro addr buf s
    by_cases hl : len = 0
    · rw [tlkStorageModifyPages, if_pos hl, tlkStorageModifyPages, if_pos hl]
      rfl
    · obtain ⟨hn, -, -⟩ := pageLen_bounds addr d.page_pos hl
      rw [tlkStorageModifyPages, if_neg hl, tlkStorageModifyPages, if_neg hl]
      refine untraced_andThen (untraced_modifyPage d addr buf _ _ s) fun s => ?_
      exact ih _ (Nat.sub_lt (Nat.pos_of_ne_zero hl) hn) _ _ s

end Untraced

theorem pages?_traced {dev : Device σ} (h : dev.page ≠ 0) :
    dev.traced.pages? h = (dev.pages? h).map Pages.traced := by
  unfold Device.pages? Device.traced
  cases dev.read <;> cases dev.hasBuffer <;> cases dev.erase <;> cases dev.write <;> rfl

theorem findDevice_traced (devices : List (Device σ)) (addr len : Nat) :
    tlkStorageFindDevice (devices.map Device.traced) addr len =
      (tlkStorageFindDevice devices addr len).map Device.traced :=
  List.find?_map

/-! ### Which run an update is -/

theorem update_eq_walk {devices : List (Device σ)} {dev : Device σ} {addr len : Nat}
    (hfind : tlkStorageFindDevice devices addr len = some dev) (hpaged : dev.page ≠ 0)
    {d : Pages σ} (hd : dev.pages? hpaged = some d) (hlen : len ≠ 0) (buf : Option (Nat → Byte))
    (s : State σ) :
    tlkStorageUpdate devices addr buf len s = walkDevice dev d addr buf len s := by
  cases buf <;>
    simp only [tlkStorageUpdate, tlkStorageWrite, tlkStorageErase, if_neg hlen, hfind,
      dif_neg hpaged, hd]

/-- An update that finds the paged device `dev` is rejected before any call, or is the page walk
of `dev`. -/
theorem update_cases {devices : List (Device σ)} {dev : Device σ} {addr len : Nat}
    (hfind : tlkStorageFindDevice devices addr len = some dev) (hpaged : dev.page ≠ 0)
    (buf : Option (Nat → Byte)) (s : State σ) :
    (∃ r, tlkStorageUpdate devices addr buf len s = (r, s)) ∨
      (len ≠ 0 ∧ ∃ d, dev.pages? hpaged = some d) := by
  by_cases hlen : len = 0
  · refine Or.inl ⟨-EINVAL, ?_⟩
    cases buf <;> simp only [tlkStorageUpdate, tlkStorageWrite, tlkStorageErase, if_pos hlen]
  · cases hd : dev.pages? hpaged with
    | none =>
      refine Or.inl ⟨-ENOSYS, ?_⟩
      cases buf <;>
        simp only [tlkStorageUpdate, tlkStorageWrite, tlkStorageErase, if_neg hlen, hfind,
          dif_neg hpaged, hd]
    | some d => exact Or.inr ⟨hlen, d, rfl⟩

theorem findDevice_traced_some {devices : List (Device σ)} {dev : Device σ} {addr len : Nat}
    (hfind : tlkStorageFindDevice devices addr len = some dev) :
    tlkStorageFindDevice (devices.map Device.traced) addr len = some dev.traced := by
  rw [findDevice_traced, hfind]
  rfl

/-- The calls of an update that finds the paged device `dev`. -/
theorem callLog_eq_walk {devices : List (Device σ)} {dev : Device σ} {addr len : Nat}
    (hfind : tlkStorageFindDevice devices addr len = some dev) (hpaged : dev.page ≠ 0)
    {d : Pages σ} (hd : dev.pages? hpaged = some d) (hlen : len ≠ 0) (buf : Option (Nat → Byte))
    (s : State σ) :
    callLog devices addr buf len s = (tlkStorageModifyPages d.traced addr buf len
      ⟨(s.world, []), s.buffer dev.id⟩).2.world.2 := by
  have hd' : dev.traced.pages? hpaged = some d.traced := by
    rw [pages?_traced, hd]
    rfl
  rw [callLog, tracedUpdate, update_eq_walk (findDevice_traced_some hfind) hpaged hd' hlen]
  rfl

/-- The traced update of a paged device: no call at all, or the traced walk, which does what the
update does. -/
theorem tracedUpdate_cases {devices : List (Device σ)} {dev : Device σ} {addr len : Nat}
    (hfind : tlkStorageFindDevice devices addr len = some dev) (hpaged : dev.page ≠ 0)
    (buf : Option (Nat → Byte)) (s : State σ) :
    callLog devices addr buf len s = [] ∨
      ∃ d, dev.pages? hpaged = some d ∧
        tlkStorageUpdate devices addr buf len s = walkDevice dev d addr buf len s ∧
        callLog devices addr buf len s = (tlkStorageModifyPages d.traced addr buf len
          ⟨(s.world, []), s.buffer dev.id⟩).2.world.2 := by
  rcases update_cases (findDevice_traced_some hfind) hpaged buf ⟨(s.world, []), s.buffer⟩ with
    ⟨r, hr⟩ | ⟨hlen, d', hd'⟩
  · exact Or.inl (by rw [callLog, tracedUpdate, hr])
  · rw [pages?_traced, Option.map_eq_some_iff] at hd'
    obtain ⟨d, hd, rfl⟩ := hd'
    exact Or.inr ⟨d, hd, update_eq_walk hfind hpaged hd hlen buf s,
      callLog_eq_walk hfind hpaged hd hlen buf s⟩

/-- The walk of a device, read off its traced walk. -/
theorem walkDevice_eq_traced (dev : Device σ) (d : Pages σ) (addr : Nat) (buf : Option (Nat → Byte))
    (len : Nat) (s : State σ) (log : List Event) :
    walkDevice dev d addr buf len s =
      let r := tlkStorageModifyPages d.traced addr buf len ⟨(s.world, log), s.buffer dev.id⟩
      (r.1, { world := r.2.world.1, buffer := Function.update s.buffer dev.id r.2.buffer }) := by
  have hsame : untraced (tlkStorageModifyPages d.traced addr buf len
      ⟨(s.world, log), s.buffer dev.id⟩) =
        tlkStorageModifyPages d addr buf len ⟨s.world, s.buffer dev.id⟩ :=
    untraced_walk d len addr buf _
  rw [walkDevice, ← hsame]
  rfl

/-! ### The calls of one page -/

/-- The run from `s` made calls that all satisfy `P`, up to the first one that failed. -/
def Ran (P : Event → Prop) (s : Walk (Traced σ)) (r : Int × Walk (Traced σ)) : Prop :=
  ∃ calls, r.2.world.2 = s.world.2 ++ calls ∧ (∀ e ∈ calls, P e) ∧ Ends Event.result r.1 calls

theorem ran_none (P : Event → Prop) {s s' : Walk (Traced σ)} (h : s'.world = s.world) :
    Ran P s (0, s') :=
  ⟨[], by rw [h, List.append_nil], fun _ h => (nomatch h), ends_nil⟩

theorem Ran.andThen {P : Event → Prop} {s : Walk (Traced σ)} {r : Int × Walk (Traced σ)}
    {next : Walk (Traced σ) → Int × Walk (Traced σ)} (hr : Ran P s r)
    (hn : ∀ s, Ran P s (next s)) : Ran P s (andThen r next) := by
  unfold Storage.andThen
  by_cases h : r.1 = 0
  · rw [if_neg (not_not_intro h)]
    obtain ⟨first, hlog, hP, hends⟩ := hr
    obtain ⟨rest, hlog', hP', hends'⟩ := hn r.2
    rw [h] at hends
    refine ⟨first ++ rest, ?_, fun e he => ?_, hends.append hends'⟩
    · rw [hlog', hlog, List.append_assoc]
    · exact (List.mem_append.mp he).elim (hP e) (hP' e)
  · rw [if_pos h]
    exact hr

theorem Ran.mono {P Q : Event → Prop} {s : Walk (Traced σ)} {r : Int × Walk (Traced σ)}
    (h : Ran P s r) (hPQ : ∀ e, P e → Q e) : Ran Q s r := by
  obtain ⟨calls, hlog, hP, hends⟩ := h
  exact ⟨calls, hlog, fun e he => hPQ e (hP e he), hends⟩

theorem ran_readInto {P : Event → Prop} (d : Pages σ) {addr len : Nat}
    (h : ∀ result, P ⟨.read, addr, len, result⟩) (pos : Nat) (s : Walk (Traced σ)) :
    Ran P s (readInto d.traced addr pos len s) :=
  ⟨_, rfl, fun _ he => List.mem_singleton.mp he ▸ h _,
    ends_singleton Event.result ⟨.read, addr, len, _⟩⟩

theorem ran_writeFrom {P : Event → Prop} (d : Pages σ) {addr len : Nat}
    (h : ∀ result, P ⟨.write, addr, len, result⟩) (data : Nat → Byte) (s : Walk (Traced σ)) :
    Ran P s (writeFrom d.traced addr data len s) :=
  ⟨_, rfl, fun _ he => List.mem_singleton.mp he ▸ h _,
    ends_singleton Event.result ⟨.write, addr, len, _⟩⟩

theorem ran_eraseAt {P : Event → Prop} (d : Pages σ) {addr : Nat}
    (h : ∀ result, P ⟨.erase, addr, d.page, result⟩) (s : Walk (Traced σ)) :
    Ran P s (eraseAt d.traced addr s) :=
  ⟨_, rfl, fun _ he => List.mem_singleton.mp he ▸ h _,
    ends_singleton Event.result ⟨.erase, addr, d.page, _⟩⟩

/-- A call for the page at `start`: a non-empty part of it, and all of it where it is erased. -/
structure PageCall (page start : Nat) (e : Event) : Prop where
  low : start ≤ e.addr
  nonempty : 0 < e.len
  high : e.addr + e.len ≤ start + page
  whole : e.callback = .erase → e.addr = start ∧ e.len = page

theorem restorePage_ran (d : Pages σ) {start : Nat} (hend : start + d.page ≤ 2 ^ 32)
    (s : Walk (Traced σ)) : Ran (PageCall d.page start) s (restorePage d.traced start s) := by
  unfold restorePage
  dsimp only
  split
  · next hsome =>
    change _ < d.page at hsome
    refine ran_writeFrom d (fun result => ?_) _ s
    rw [u32_of_lt (by omega)]
    change PageCall d.page start ⟨.write, _, d.page - _ - _, result⟩
    refine ⟨?_, ?_, ?_, nofun⟩ <;> dsimp only <;> omega
  · exact ran_none _ rfl

theorem rebuildPage_ran (d : Pages σ) {start off len : Nat} (hend : start + d.page ≤ 2 ^ 32)
    (hpos : 0 < len) (hlen : off + len ≤ d.page) (buf : Option (Nat → Byte))
    (s : Walk (Traced σ)) :
    Ran (PageCall d.page start) s (rebuildPage d.traced (start + off) buf off len s) := by
  have hp := d.page_pos
  unfold rebuildPage
  rw [Nat.add_sub_cancel]
  refine Ran.andThen ?_ fun s => Ran.andThen ?_ fun s => Ran.andThen ?_ fun s => ?_
  · split
    · refine ran_readInto d (fun result => ?_) _ _
      refine ⟨?_, ?_, ?_, nofun⟩ <;> dsimp only <;> omega
    · exact ran_none _ rfl
  · split
    · next htail =>
      change off + len < d.page at htail
      change Ran _ s (readInto d.traced _ _ (d.page - (off + len)) _)
      rw [u32_of_lt (by omega)]
      refine ran_readInto (P := PageCall d.page start) d (fun result => ?_) (off + len) _
      refine ⟨?_, ?_, ?_, nofun⟩ <;> dsimp only <;> omega
    · exact ran_none _ rfl
  · exact ran_eraseAt d (fun result => ⟨Nat.le_refl _, hp, Nat.le_refl _, fun _ => ⟨rfl, rfl⟩⟩) _
  · exact restorePage_ran d hend _

theorem modifyPage_ran (d : Pages σ) {start off len : Nat} (hend : start + d.page ≤ 2 ^ 32)
    (hpos : 0 < len) (hlen : off + len ≤ d.page) (buf : Option (Nat → Byte))
    (s : Walk (Traced σ)) :
    Ran (PageCall d.page start) s (modifyPage d.traced (start + off) buf off len s) := by
  unfold modifyPage
  refine Ran.andThen ?_ fun s => ?_
  · refine ran_readInto d (fun result => ?_) _ _
    refine ⟨?_, ?_, ?_, nofun⟩ <;> dsimp only <;> omega
  · dsimp only
    split
    · exact ran_none _ rfl
    · split
      · cases buf with
        | none => exact ran_none _ rfl
        | some b =>
          refine ran_writeFrom d (fun result => ?_) b _
          refine ⟨?_, ?_, ?_, nofun⟩ <;> dsimp only <;> omega
      · exact rebuildPage_ran d hend hpos hlen buf _

/-! ### The calls of the walk -/

/-- A call for a page of `[lo, hi)` that the range `[addr, addr+len)` meets. -/
def RangeCall (page lo hi addr len : Nat) (e : Event) : Prop :=
  ∃ start, start % page = 0 ∧ lo ≤ start ∧ start + page ≤ hi ∧ start < addr + len ∧
    addr < start + page ∧ PageCall page start e

theorem walk_ran (d : Pages σ) {lo hi : Nat} (hwrap : hi ≤ 2 ^ 32) (hlop : lo % d.page = 0)
    (hhip : hi % d.page = 0) : ∀ (len addr : Nat) (buf : Option (Nat → Byte))
      (s : Walk (Traced σ)), lo ≤ addr → addr + len ≤ hi →
      Ran (RangeCall d.page lo hi addr len) s (tlkStorageModifyPages d.traced addr buf len s) := by
  intro len
  induction len using Nat.strong_induction_on with
  | h len ih =>
    intro addr buf s hlo hhi
    by_cases hl : len = 0
    · rw [tlkStorageModifyPages, if_pos hl]
      exact ran_none _ rfl
    · obtain ⟨hn, hpage, hle⟩ := pageLen_bounds addr d.page_pos hl
      have hstart := le_blockStart hlop hlo
      have hend := blockEnd_le hhip (show addr < hi by omega)
      have hmod := Nat.mod_le addr d.page
      have hone := modifyPage_ran d (Nat.le_trans hend hwrap) hn hpage buf s
      rw [Nat.sub_add_cancel hmod] at hone
      rw [tlkStorageModifyPages, if_neg hl]
      dsimp only [Pages.traced_page]
      have hlt := Nat.mod_lt addr d.page_pos
      generalize hN : min len (d.page - addr % d.page) = n at hn hle hone hpage ⊢
      refine Ran.andThen (hone.mono fun e he => ?_) fun s => ?_
      · exact ⟨addr - addr % d.page, blockStart_mod d.page addr, hstart, hend, by omega, by omega,
          he⟩
      · by_cases hrest : len - n = 0
        · rw [hrest, tlkStorageModifyPages, if_pos rfl]
          exact ran_none _ rfl
        · rw [u32_of_lt (by omega)]
          refine (ih (len - n) (by omega) (addr + n) _ _ (by omega) (by omega)).mono ?_
          rintro e ⟨start, hs, hlo', hhi', hmeet, hmeet', hcall⟩
          exact ⟨start, hs, hlo', hhi', by omega, by omega, hcall⟩

end UniSdk.Storage
