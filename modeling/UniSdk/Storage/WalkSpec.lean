import UniSdk.Storage.PageSpec

/-!
# The whole page walk on a byte array

The walk's effect is the composition of its pages' effects. For a given buffer
that composition is one overwrite of the requested range. For a null buffer it
cleans the pages on which some requested byte needs an erase and leaves the
other pages alone.
-/

namespace UniSdk.Storage

open Library.Cells Library.Aligned Library.Words

variable {σ : Type}

/-- The pages' effects, composed in the order of the walk. -/
def walkCells (page : Nat) (clean : Byte) (buf : Option (Nat → Byte)) (mem : Nat → Byte)
    (addr len : Nat) : Nat → Byte :=
  if page = 0 ∨ len = 0 then mem
  else
    let n := min len (page - addr % page)
    walkCells page clean (buf.map fun b i => b (n + i)) (pageCells clean buf mem addr n)
      (addr + n) (len - n)
termination_by len
decreasing_by
  have := Nat.mod_lt addr (show 0 < page by omega)
  omega

/-- The length of the first part of a request is positive and stays on its page. -/
theorem pageLen_bounds {page len : Nat} (addr : Nat) (hp : 0 < page) (hl : len ≠ 0) :
    0 < min len (page - addr % page) ∧
    addr % page + min len (page - addr % page) ≤ page ∧
    min len (page - addr % page) ≤ len := by
  have := Nat.mod_lt addr hp
  omega

theorem FlashModel.walk_spec {d : Pages σ} {lo hi : Nat} {cells : σ → Nat → Byte}
    (hm : FlashModel d lo hi cells) (hwrap : hi < 2 ^ 32) (hlop : lo % d.page = 0)
    (hhip : hi % d.page = 0) :
    ∀ (len addr : Nat) (buf : Option (Nat → Byte)) (s : Walk σ), lo ≤ addr → addr + len ≤ hi →
      (tlkStorageModifyPages d addr buf len s).1 = 0 ∧
      cells (tlkStorageModifyPages d addr buf len s).2.world =
        walkCells d.page d.cleanByte buf (cells s.world) addr len := by
  intro len
  induction len using Nat.strong_induction_on with
  | h len ih =>
    intro addr buf s hlo hhi
    by_cases hl : len = 0
    · rw [tlkStorageModifyPages, if_pos hl, walkCells, if_pos (Or.inr hl)]
      exact ⟨rfl, rfl⟩
    · obtain ⟨hn, hpage, hle⟩ := pageLen_bounds addr d.page_pos hl
      have hstart := le_blockStart hlop hlo
      have hend := blockEnd_le hhip (show addr < hi by omega)
      have hmod := Nat.mod_le addr d.page
      have hone := hm.modifyPage_spec hwrap (blockStart_mod d.page addr) hstart hend hpage hn buf s
      rw [Nat.sub_add_cancel hmod] at hone
      rw [tlkStorageModifyPages, if_neg hl, walkCells,
        if_neg (by have := d.page_pos; omega)]
      dsimp only
      generalize min len (d.page - addr % d.page) = n at hn hle hone ⊢
      rw [andThen_of_zero hone.1, u32_of_lt (by omega), ← hone.2]
      exact ih (len - n) (by omega) (addr + n) _ _ (by omega) (by omega)

/-- With a buffer every page takes its part of it, so the range takes all of it. -/
theorem walkCells_some {page : Nat} (hp : 0 < page) (clean : Byte) :
    ∀ (len addr : Nat) (b : Nat → Byte) (mem : Nat → Byte),
      walkCells page clean (some b) mem addr len = overwrite mem addr len b := by
  intro len
  induction len using Nat.strong_induction_on with
  | h len ih =>
    intro addr b mem
    by_cases hl : len = 0
    · rw [walkCells, if_pos (Or.inr hl), hl, overwrite_zero]
    · obtain ⟨hn, _, hle⟩ := pageLen_bounds addr hp hl
      rw [walkCells, if_neg (by omega)]
      dsimp only
      generalize min len (page - addr % page) = n at hn hle ⊢
      rw [Option.map_some, ih (len - n) (by omega), pageCells, if_neg (by simp)]
      conv_rhs => rw [show len = n + (len - n) from by omega]
      exact overwrite_append mem addr n (len - n) b

/-- Some requested byte on the page of `j` cannot be cleaned in place. -/
def NeedsErase (page : Nat) (clean : Byte) (mem : Nat → Byte) (addr len j : Nat) : Prop :=
  ∃ k, addr ≤ k ∧ k < addr + len ∧ k / page = j / page ∧ ¬ Clears (mem k) clean

/-- The first part of the request and the rest lie on different pages. -/
theorem rest_on_later_page {page addr len j : Nat} (hp : 0 < page)
    (hj : addr + min len (page - addr % page) ≤ j) (hj' : j < addr + len) :
    j / page ≠ addr / page := by
  have := Nat.mod_lt addr hp
  have := Nat.mod_le addr page
  rw [Ne, div_eq_iff_block hp]
  omega

theorem first_on_page {page addr len j : Nat} (hp : 0 < page) (hlo : addr ≤ j)
    (hj : j < addr + min len (page - addr % page)) : j / page = addr / page := by
  have := Nat.mod_le addr page
  rw [div_eq_iff_block hp]
  omega

section FirstPage

variable {page : Nat} {clean : Byte} {len addr n j : Nat}

/-- On the first page the range has only its first part. -/
theorem needsErase_first (mem : Nat → Byte) (hle : n ≤ len) (hj : addr ≤ j) (hj' : j < addr + n)
    (hfirst : ∀ k, addr ≤ k → k < addr + n → k / page = addr / page)
    (hlater : ∀ k, addr + n ≤ k → k < addr + len → k / page ≠ addr / page) :
    NeedsErase page clean mem addr len j ↔ ¬ ∀ i, i < n → Clears (mem (addr + i)) clean := by
  constructor
  · rintro ⟨k, hk, hk', hpage, hnot⟩ hall
    have hkn : k < addr + n := by
      by_contra hge
      exact hlater k (by omega) hk' (hpage.trans (hfirst j hj hj'))
    have hclears := hall (k - addr) (by omega)
    rw [Nat.add_sub_cancel' hk] at hclears
    exact hnot hclears
  · intro hall
    simp only [not_forall] at hall
    obtain ⟨i, hi, hnot⟩ := hall
    refine ⟨addr + i, by omega, by omega, ?_, hnot⟩
    rw [hfirst (addr + i) (by omega) (by omega), hfirst j hj hj']

/-- Beyond it neither the cells nor the pages of the first part matter. -/
theorem needsErase_rest {mem mem' : Nat → Byte} (hle : n ≤ len) (hj : addr + n ≤ j)
    (hj' : j < addr + len) (hmem : ∀ k, addr + n ≤ k → mem' k = mem k)
    (hfirst : ∀ k, addr ≤ k → k < addr + n → k / page = addr / page)
    (hlater : ∀ k, addr + n ≤ k → k < addr + len → k / page ≠ addr / page) :
    NeedsErase page clean mem' (addr + n) (len - n) j ↔ NeedsErase page clean mem addr len j := by
  constructor
  · rintro ⟨k, hk, hk', hpage, hnot⟩
    rw [hmem k hk] at hnot
    exact ⟨k, by omega, by omega, hpage, hnot⟩
  · rintro ⟨k, hk, hk', hpage, hnot⟩
    have hkn : addr + n ≤ k := by
      by_contra hlt
      exact hlater j hj hj' (hpage.symm.trans (hfirst k hk (by omega)))
    rw [← hmem k hkn] at hnot
    exact ⟨k, hkn, by omega, hpage, hnot⟩

end FirstPage

open Classical in
/-- With a null buffer a cell of the range is cleaned exactly when some byte of
the range on its page needs an erase. -/
theorem walkCells_none {page : Nat} (hp : 0 < page) (clean : Byte) :
    ∀ (len addr : Nat) (mem : Nat → Byte) (j : Nat),
      walkCells page clean none mem addr len j =
        if addr ≤ j ∧ j < addr + len ∧ NeedsErase page clean mem addr len j then clean
        else mem j := by
  intro len
  induction len using Nat.strong_induction_on with
  | h len ih =>
    intro addr mem j
    by_cases hl : len = 0
    · rw [walkCells, if_pos (Or.inr hl), if_neg (by omega)]
    · obtain ⟨hn, _, hle⟩ := pageLen_bounds addr hp hl
      have hlater : ∀ j, addr + min len (page - addr % page) ≤ j → j < addr + len →
          j / page ≠ addr / page := fun j => rest_on_later_page hp
      have hfirst : ∀ j, addr ≤ j → j < addr + min len (page - addr % page) →
          j / page = addr / page := fun j => first_on_page hp
      rw [walkCells, if_neg (by omega)]
      generalize min len (page - addr % page) = n at hn hle hlater hfirst ⊢
      rw [Option.map_none, ih (len - n) (by omega)]
      have hmem : ∀ k, k < addr ∨ addr + n ≤ k → pageCells clean none mem addr n k = mem k := by
        intro k hk
        unfold pageCells
        split
        · rfl
        · exact overwrite_outside _ _ hk
      by_cases hj1 : addr ≤ j ∧ j < addr + n
      · rw [if_neg (by omega), needsErase_first mem hle hj1.1 hj1.2 hfirst hlater]
        unfold pageCells
        by_cases hall : ∀ i, i < n → Clears (mem (addr + i)) clean
        · rw [if_pos ⟨rfl, hall⟩, if_neg (fun h => h.2.2 hall)]
        · rw [if_neg (fun h => hall h.2), if_pos ⟨hj1.1, by omega, hall⟩,
            overwrite_inside _ _ hj1.1 hj1.2]
          rfl
      · rw [hmem j (by omega)]
        by_cases hj2 : addr + n ≤ j ∧ j < addr + len
        · have hrest : ∀ k, addr + n ≤ k → pageCells clean none mem addr n k = mem k :=
            fun k hk => hmem k (Or.inr hk)
          rw [needsErase_rest hle hj2.1 hj2.2 hrest hfirst hlater]
          congr 1
          exact propext ⟨fun h => ⟨by omega, hj2.2, h.2.2⟩, fun h => ⟨hj2.1, by omega, h.2.2⟩⟩
        · rw [if_neg (by omega), if_neg (by omega)]

end UniSdk.Storage
