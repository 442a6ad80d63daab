import UniSdk.Library.Aligned
import UniSdk.Storage.Pages

/-!
# What the storage layer can touch when callbacks may fail

A callback here may return anything and leave anything on the pages it is called
for. Then a call of the storage layer, whether it succeeds, is rejected or stops
in the middle, alters at most the pages that the requested range meets.
-/

namespace UniSdk.Storage

open Library.Cells Library.Aligned Library.Words

variable {σ : Type}

/-- The pages that the range `[addr, addr+len)` meets. -/
def OnPages (page addr len : Nat) : Nat → Prop :=
  fun j => ∃ k, addr ≤ k ∧ k < addr + len ∧ k / page = j / page

/-- The page that holds `addr`. -/
def OnPage (page addr : Nat) : Nat → Prop := fun j => j / page = addr / page

/-- Each callback alters at most the pages it is called for. -/
structure PageLocal (dev : Device σ) (cells : σ → Nat → Byte) : Prop where
  read : ∀ f, dev.read = some f → ∀ addr len w,
    Within (OnPages dev.page addr len) (cells w) (cells (f addr len w).2.2)
  erase : ∀ f, dev.erase = some f → ∀ addr len w,
    Within (OnPages dev.page addr len) (cells w) (cells (f addr len w).2)
  write : ∀ f, dev.write = some f → ∀ addr data len w,
    Within (OnPages dev.page addr len) (cells w) (cells (f addr data len w).2)

/-- The callbacks of a device that passed the null tests, with the same locality. -/
structure LocalPages (d : Pages σ) (cells : σ → Nat → Byte) : Prop where
  read : ∀ addr len w,
    Within (OnPages d.page addr len) (cells w) (cells (d.read addr len w).2.2)
  erase : ∀ addr len w,
    Within (OnPages d.page addr len) (cells w) (cells (d.erase addr len w).2)
  write : ∀ addr data len w,
    Within (OnPages d.page addr len) (cells w) (cells (d.write addr data len w).2)

theorem PageLocal.pages {dev : Device σ} {cells : σ → Nat → Byte} (hloc : PageLocal dev cells)
    {h : dev.page ≠ 0} {d : Pages σ} (hd : dev.pages? h = some d) :
    d.page = dev.page ∧ LocalPages d cells := by
  unfold Device.pages? at hd
  split at hd
  · rename_i read erase write hr _ he hw
    obtain rfl := Option.some.inj hd
    exact ⟨rfl, hloc.read read hr, hloc.erase erase he, hloc.write write hw⟩
  · contradiction

/-- A range inside one page meets that page only. -/
theorem onPages_sub_onPage {page start len addr : Nat} (hp : 0 < page)
    (hlo : addr - addr % page ≤ start) (hhi : start + len ≤ addr - addr % page + page) :
    ∀ j, OnPages page start len j → OnPage page addr j := by
  rintro j ⟨k, hk, hk', hpage⟩
  exact hpage.symm.trans ((div_eq_iff_block hp).mpr ⟨by omega, by omega⟩)

theorem andThen_within {S : Nat → Prop} {cells : σ → Nat → Byte} {mem : Nat → Byte}
    {r : Int × Walk σ} {next : Walk σ → Int × Walk σ}
    (hr : Within S mem (cells r.2.world))
    (hn : ∀ s, Within S mem (cells s.world) → Within S mem (cells (next s).2.world)) :
    Within S mem (cells (andThen r next).2.world) := by
  unfold andThen
  split
  · exact hr
  · exact hn _ hr

namespace LocalPages

variable {d : Pages σ} {cells : σ → Nat → Byte} {mem : Nat → Byte}

theorem readInto_within (hloc : LocalPages d cells) {S : Nat → Prop} {start pos len : Nat}
    (hS : ∀ j, OnPages d.page start len j → S j) {s : Walk σ} (h : Within S mem (cells s.world)) :
    Within S mem (cells (readInto d start pos len s).2.world) :=
  h.trans ((hloc.read start len s.world).mono hS)

theorem writeFrom_within (hloc : LocalPages d cells) {S : Nat → Prop} {start len : Nat}
    (hS : ∀ j, OnPages d.page start len j → S j) (data : Nat → Byte) {s : Walk σ}
    (h : Within S mem (cells s.world)) :
    Within S mem (cells (writeFrom d start data len s).2.world) :=
  h.trans ((hloc.write start data len s.world).mono hS)

theorem eraseAt_within (hloc : LocalPages d cells) {S : Nat → Prop} {start : Nat}
    (hS : ∀ j, OnPages d.page start d.page j → S j) {s : Walk σ}
    (h : Within S mem (cells s.world)) :
    Within S mem (cells (eraseAt d start s).2.world) :=
  h.trans ((hloc.erase start d.page s.world).mono hS)

/-- Rebuilding reads, erases and writes nothing off the page, wherever a callback
gives up. -/
theorem rebuildPage_within (hloc : LocalPages d cells) {addr len : Nat}
    (hend : addr - addr % d.page + d.page ≤ 2 ^ 32) (hpos : 0 < len)
    (hlen : addr % d.page + len ≤ d.page) (buf : Option (Nat → Byte)) {s : Walk σ}
    (h : Within (OnPage d.page addr) mem (cells s.world)) :
    Within (OnPage d.page addr) mem
      (cells (rebuildPage d addr buf (addr % d.page) len s).2.world) := by
  have hle := Nat.mod_le addr d.page
  have hp := d.page_pos
  have hsub : ∀ start n, addr - addr % d.page ≤ start →
      start + n ≤ addr - addr % d.page + d.page →
      ∀ j, OnPages d.page start n j → OnPage d.page addr j :=
    fun _ _ => onPages_sub_onPage hp
  unfold rebuildPage
  refine andThen_within ?_ fun s1 h1 => ?_
  · split
    · exact hloc.readInto_within (hsub _ _ (Nat.le_refl _) (by omega)) h
    · exact h
  refine andThen_within ?_ fun s2 h2 => ?_
  · split
    · have hlt : addr + len < 2 ^ 32 := by omega
      rw [u32_of_lt hlt]
      exact hloc.readInto_within (hsub _ _ (by omega) (by omega)) h1
    · exact h1
  refine andThen_within (hloc.eraseAt_within (hsub _ _ (Nat.le_refl _) (Nat.le_refl _)) h2)
    fun s3 h3 => ?_
  unfold restorePage
  dsimp only
  split
  · rw [u32_of_lt (by omega)]
    exact hloc.writeFrom_within (hsub _ _ (by omega) (by omega)) _ h3
  · exact h3

theorem modifyPage_within (hloc : LocalPages d cells) {addr len : Nat}
    (hend : addr - addr % d.page + d.page ≤ 2 ^ 32) (hpos : 0 < len)
    (hlen : addr % d.page + len ≤ d.page) (buf : Option (Nat → Byte)) {s : Walk σ}
    (h : Within (OnPage d.page addr) mem (cells s.world)) :
    Within (OnPage d.page addr) mem
      (cells (modifyPage d addr buf (addr % d.page) len s).2.world) := by
  have hsub : ∀ j, OnPages d.page addr len j → OnPage d.page addr j :=
    onPages_sub_onPage d.page_pos (by omega) (by have := Nat.mod_le addr d.page; omega)
  unfold modifyPage
  refine andThen_within (hloc.readInto_within hsub h) fun s1 h1 => ?_
  dsimp only
  split
  · exact h1
  · split
    · cases buf with
      | none => exact h1
      | some b => exact hloc.writeFrom_within hsub b h1
    · exact hloc.rebuildPage_within hend hpos hlen buf h1

/-- The walk stays on the pages of its range. -/
theorem walk_within (hloc : LocalPages d cells) {hi : Nat} (hhip : hi % d.page = 0)
    (hwrap : hi ≤ 2 ^ 32) :
    ∀ (len addr : Nat) (buf : Option (Nat → Byte)) (s : Walk σ), addr + len ≤ hi →
      Within (OnPages d.page addr len) (cells s.world)
        (cells (tlkStorageModifyPages d addr buf len s).2.world) := by
  intro len
  induction len using Nat.strong_induction_on with
  | h len ih =>
    intro addr buf s hhi
    by_cases hl : len = 0
    · rw [tlkStorageModifyPages, if_pos hl]
      exact Within.refl _ _
    · have hmod := Nat.mod_lt addr d.page_pos
      have hend := blockEnd_le hhip (show addr < hi by omega)
      rw [tlkStorageModifyPages, if_neg hl]
      dsimp only
      generalize hn : min len (d.page - addr % d.page) = n
      have hone : Within (OnPage d.page addr) (cells s.world)
          (cells (modifyPage d addr buf (addr % d.page) n s).2.world) :=
        hloc.modifyPage_within (by omega) (by omega) (by omega) buf (Within.refl _ _)
      have hfirst : Within (OnPages d.page addr len) (cells s.world)
          (cells (modifyPage d addr buf (addr % d.page) n s).2.world) :=
        hone.mono fun j hj => ⟨addr, by omega, by omega, hj.symm⟩
      unfold andThen
      split
      · exact hfirst
      · dsimp only
        by_cases hrest : len - n = 0
        · rw [tlkStorageModifyPages, if_pos hrest]
          exact hfirst
        · rw [u32_of_lt (by omega)]
          refine hfirst.trans ((ih (len - n) (by omega) (addr + n) _ _ (by omega)).mono ?_)
          rintro j ⟨k, hk, hk', hpage⟩
          exact ⟨k, by omega, by omega, hpage⟩

end LocalPages

section Entry

variable {devices : List (Device σ)} {dev : Device σ} {cells : σ → Nat → Byte}

/-- Only `dev` can be found for the range. -/
def OnlyFound (devices : List (Device σ)) (dev : Device σ) (addr len : Nat) : Prop :=
  ∀ d ∈ devices, d.covers addr len = true → d = dev

theorem OnlyFound.find_cases {addr len : Nat} (honly : OnlyFound devices dev addr len) :
    tlkStorageFindDevice devices addr len = none ∨
      tlkStorageFindDevice devices addr len = some dev := by
  cases hf : tlkStorageFindDevice devices addr len with
  | none => exact .inl rfl
  | some d =>
    obtain ⟨hmem, hcov⟩ := findDevice_some hf
    rw [honly d hmem hcov]
    exact .inr rfl

theorem tlkStorageRead_within (hloc : PageLocal dev cells) {addr len : Nat}
    (honly : OnlyFound devices dev addr len) (dst : Bool) (s : State σ) :
    Within (OnPages dev.page addr len) (cells s.world)
      (cells (tlkStorageRead devices addr dst len s).2.2.world) := by
  unfold tlkStorageRead
  split
  · exact Within.refl _ _
  · rcases honly.find_cases with hf | hf
    · rw [hf]
      exact Within.refl _ _
    · rw [hf]
      dsimp only
      cases hr : dev.read with
      | none => exact Within.refl _ _
      | some read => exact hloc.read read hr addr len s.world

theorem walkDevice_within (hloc : PageLocal dev cells) {h : dev.page ≠ 0} {d : Pages σ}
    (hd : dev.pages? h = some d) {addr len hi : Nat} (hhip : hi % dev.page = 0)
    (hwrap : hi ≤ 2 ^ 32) (hhi : addr + len ≤ hi) (buf : Option (Nat → Byte)) (s : State σ) :
    Within (OnPages dev.page addr len) (cells s.world)
      (cells (walkDevice dev d addr buf len s).2.world) := by
  obtain ⟨hp, hl⟩ := hloc.pages hd
  rw [← hp] at hhip ⊢
  exact hl.walk_within hhip hwrap len addr buf ⟨s.world, s.buffer dev.id⟩ hhi

theorem tlkStorageWrite_within (hloc : PageLocal dev cells) (hpage : dev.page ≠ 0)
    {addr len hi : Nat} (honly : OnlyFound devices dev addr len) (hhip : hi % dev.page = 0)
    (hwrap : hi ≤ 2 ^ 32) (hhi : addr + len ≤ hi) (buf : Option (Nat → Byte)) (s : State σ) :
    Within (OnPages dev.page addr len) (cells s.world)
      (cells (tlkStorageWrite devices addr buf len s).2.world) := by
  unfold tlkStorageWrite
  cases buf with
  | none => exact Within.refl _ _
  | some b =>
    dsimp only
    split
    · exact Within.refl _ _
    · rcases honly.find_cases with hf | hf
      · rw [hf]
        exact Within.refl _ _
      · rw [hf]
        dsimp only
        rw [dif_neg hpage]
        cases hd : dev.pages? hpage with
        | none => exact Within.refl _ _
        | some p => exact walkDevice_within hloc hd hhip hwrap hhi (some b) s

theorem tlkStorageErase_within (hloc : PageLocal dev cells) (hpage : dev.page ≠ 0)
    {addr len hi : Nat} (honly : OnlyFound devices dev addr len) (hhip : hi % dev.page = 0)
    (hwrap : hi ≤ 2 ^ 32) (hhi : addr + len ≤ hi) (s : State σ) :
    Within (OnPages dev.page addr len) (cells s.world)
      (cells (tlkStorageErase devices addr len s).2.world) := by
  unfold tlkStorageErase
  split
  · exact Within.refl _ _
  · rcases honly.find_cases with hf | hf
    · rw [hf]
      exact Within.refl _ _
    · rw [hf]
      dsimp only
      rw [dif_neg hpage]
      cases hd : dev.pages? hpage with
      | none => exact Within.refl _ _
      | some p => exact walkDevice_within hloc hd hhip hwrap hhi none s

end Entry

end UniSdk.Storage
