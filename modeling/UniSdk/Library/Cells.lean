import Mathlib.Data.List.Basic
import Mathlib.Logic.Function.Basic

/-!
# Cells addressed by naturals

A memory is a function from addresses to cells. `overwrite` replaces one
interval; `combine` merges values into single cells, one after the other;
`Within` says that two memories differ only at addresses of a given set.
Nothing here knows what the cells hold.
-/

namespace UniSdk.Library.Cells

variable {β : Type*}

/-- Replace the cells of `[addr, addr+len)` by `data 0`, `data 1`, … -/
def overwrite (mem : Nat → β) (addr len : Nat) (data : Nat → β) : Nat → β :=
  fun j => if addr ≤ j ∧ j < addr + len then data (j - addr) else mem j

theorem overwrite_inside (mem : Nat → β) {addr len j : Nat} (data : Nat → β)
    (hlo : addr ≤ j) (hhi : j < addr + len) :
    overwrite mem addr len data j = data (j - addr) :=
  if_pos ⟨hlo, hhi⟩

theorem overwrite_outside (mem : Nat → β) {addr len j : Nat} (data : Nat → β)
    (h : j < addr ∨ addr + len ≤ j) : overwrite mem addr len data j = mem j :=
  if_neg (by omega)

@[simp] theorem overwrite_zero (mem : Nat → β) (addr : Nat) (data : Nat → β) :
    overwrite mem addr 0 data = mem := by
  funext j
  exact overwrite_outside mem data (by omega)

/-- Two adjacent intervals written one after the other are one interval. -/
theorem overwrite_append (mem : Nat → β) (addr n m : Nat) (data : Nat → β) :
    overwrite (overwrite mem addr n data) (addr + n) m (fun i => data (n + i)) =
      overwrite mem addr (n + m) data := by
  funext j
  by_cases hlo : addr ≤ j ∧ j < addr + n
  · rw [overwrite_outside _ _ (by omega), overwrite_inside _ _ hlo.1 hlo.2,
      overwrite_inside _ _ hlo.1 (by omega)]
  · by_cases hhi : addr + n ≤ j ∧ j < addr + n + m
    · rw [overwrite_inside _ _ hhi.1 hhi.2, overwrite_inside _ _ (by omega) (by omega)]
      congr 1
      omega
    · rw [overwrite_outside _ _ (by omega), overwrite_outside _ _ (by omega),
        overwrite_outside _ _ (by omega)]

/-- Only the data of the interval matters. -/
theorem overwrite_congr (mem : Nat → β) (addr len : Nat) {data data' : Nat → β}
    (h : ∀ i, i < len → data i = data' i) :
    overwrite mem addr len data = overwrite mem addr len data' := by
  funext j
  by_cases hj : addr ≤ j ∧ j < addr + len
  · rw [overwrite_inside _ _ hj.1 hj.2, overwrite_inside _ _ hj.1 hj.2]
    exact h (j - addr) (by omega)
  · rw [overwrite_outside _ _ (by omega), overwrite_outside _ _ (by omega)]

/-- Overwriting with the cells of a memory that agrees elsewhere gives that memory. -/
theorem overwrite_eq_of_agree {mem mem' : Nat → β} {addr len : Nat} {data : Nat → β}
    (hin : ∀ i, i < len → mem' (addr + i) = data i)
    (hout : ∀ j, j < addr ∨ addr + len ≤ j → mem' j = mem j) :
    overwrite mem addr len data = mem' := by
  funext j
  by_cases hj : addr ≤ j ∧ j < addr + len
  · rw [overwrite_inside _ _ hj.1 hj.2, ← hin (j - addr) (by omega)]
    congr 1
    omega
  · rw [overwrite_outside _ _ (by omega), hout j (by omega)]

/-- Writing what is already there changes nothing. -/
theorem overwrite_same (mem : Nat → β) (addr len : Nat) (data : Nat → β)
    (h : ∀ i, i < len → mem (addr + i) = data i) : overwrite mem addr len data = mem :=
  overwrite_eq_of_agree h fun _ _ => rfl

section Combine

variable {γ : Type*} (op : β → γ → β)

/-- Merge each value into its cell, in the order of the list. -/
def combine (mem : Nat → β) (values : List (Nat × γ)) : Nat → β :=
  values.foldl (fun mem v => Function.update mem v.1 (op (mem v.1) v.2)) mem

theorem combine_cons (mem : Nat → β) (v : Nat × γ) (values : List (Nat × γ)) :
    combine op mem (v :: values) =
      combine op (Function.update mem v.1 (op (mem v.1) v.2)) values := rfl

theorem combine_append (mem : Nat → β) (xs ys : List (Nat × γ)) :
    combine op mem (xs ++ ys) = combine op (combine op mem xs) ys :=
  List.foldl_append

theorem combine_of_not_mem {values : List (Nat × γ)} {j : Nat} (h : j ∉ values.map Prod.fst) :
    ∀ mem, combine op mem values j = mem j := by
  induction values with
  | nil => exact fun _ => rfl
  | cons v values ih =>
    intro mem
    obtain ⟨hv, hrest⟩ := List.ne_and_not_mem_of_not_mem_cons h
    rw [combine_cons, ih hrest, Function.update_of_ne hv]

/-- A cell that is named once takes its value once. -/
theorem combine_of_mem {values : List (Nat × γ)} (h : (values.map Prod.fst).Nodup) {v : Nat × γ}
    (hv : v ∈ values) : ∀ mem, combine op mem values v.1 = op (mem v.1) v.2 := by
  induction values with
  | nil => exact nomatch hv
  | cons w values ih =>
    intro mem
    obtain ⟨hnot, hrest⟩ := List.nodup_cons.mp h
    rw [combine_cons]
    rcases List.mem_cons.mp hv with rfl | hv
    · rw [combine_of_not_mem op hnot, Function.update_self]
    · have hne : v.1 ≠ w.1 := fun heq => hnot (heq ▸ List.mem_map_of_mem hv)
      rw [ih hrest hv, Function.update_of_ne hne]

end Combine

/-- The two memories agree outside `S`. -/
def Within (S : Nat → Prop) (mem mem' : Nat → β) : Prop := ∀ j, ¬ S j → mem' j = mem j

theorem Within.refl (S : Nat → Prop) (mem : Nat → β) : Within S mem mem := fun _ _ => rfl

theorem Within.trans {S : Nat → Prop} {a b c : Nat → β} (hab : Within S a b)
    (hbc : Within S b c) : Within S a c :=
  fun j hj => (hbc j hj).trans (hab j hj)

theorem Within.mono {S T : Nat → Prop} {a b : Nat → β} (h : Within S a b)
    (hST : ∀ j, S j → T j) : Within T a b :=
  fun j hj => h j fun hs => hj (hST j hs)

end UniSdk.Library.Cells
