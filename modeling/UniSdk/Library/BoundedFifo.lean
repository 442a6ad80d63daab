import Mathlib.Data.List.Basic
import Mathlib.Data.Nat.ModEq
import Mathlib.Logic.Function.Basic

/-!
# Bounded FIFO queues and their ring representation

The abstract queue is a list with a capacity. A history of pushes and pops
accepts some items and pops some; what has been accepted is always what has been
popped followed by what is queued. A ring of `n` cells represents the list of
`count` items that starts at `head` and wraps.
-/

namespace UniSdk.Library.BoundedFifo

variable {α : Type*}

/-- Append unless full. -/
def push (capacity : Nat) (queue : List α) (item : α) : Bool × List α :=
  if queue.length < capacity then (true, queue ++ [item]) else (false, queue)

/-- Take the oldest item, if any. -/
def pop : List α → Option α × List α
  | [] => (none, [])
  | item :: queue => (some item, queue)

theorem push_length_le {capacity : Nat} {queue : List α} (item : α)
    (h : queue.length ≤ capacity) : (push capacity queue item).2.length ≤ capacity := by
  unfold push
  split
  · rw [List.length_append, List.length_singleton]; omega
  · exact h

theorem pop_length_le {capacity : Nat} {queue : List α} (h : queue.length ≤ capacity) :
    (pop queue).2.length ≤ capacity := by
  cases queue with
  | nil => exact h
  | cons item queue => rw [List.length_cons] at h; simp only [pop]; omega

/-- A queue with the record of what it accepted and of what it gave back. -/
structure History (α : Type*) where
  accepted : List α
  popped : List α
  queue : List α

inductive Op (α : Type*)
  | push (item : α)
  | pop

def History.empty : History α := ⟨[], [], []⟩

def History.step (capacity : Nat) (h : History α) : Op α → History α
  | .push item =>
    let r := push capacity h.queue item
    { h with accepted := if r.1 then h.accepted ++ [item] else h.accepted, queue := r.2 }
  | .pop =>
    let r := pop h.queue
    { h with popped := h.popped ++ r.1.toList, queue := r.2 }

/-- Nothing is lost, repeated or reordered, and the capacity is kept. -/
structure History.Sound (capacity : Nat) (h : History α) : Prop where
  accounts : h.accepted = h.popped ++ h.queue
  bounded : h.queue.length ≤ capacity

theorem History.sound_empty (capacity : Nat) : (empty : History α).Sound capacity :=
  ⟨rfl, Nat.zero_le _⟩

theorem History.step_sound {capacity : Nat} {h : History α} (hs : h.Sound capacity) (op : Op α) :
    (h.step capacity op).Sound capacity := by
  cases op with
  | push item =>
    refine ⟨?_, push_length_le item hs.bounded⟩
    simp only [step, push]
    by_cases hc : h.queue.length < capacity
    · simp [if_pos hc, hs.accounts]
    · simp [if_neg hc, hs.accounts]
  | pop =>
    refine ⟨?_, pop_length_le hs.bounded⟩
    have ha := hs.accounts
    cases hq : h.queue with
    | nil => simpa [step, pop, hq] using ha
    | cons item queue => simpa [step, pop, hq] using ha

theorem History.run_sound {capacity : Nat} {h : History α} (hs : h.Sound capacity)
    (ops : List (Op α)) : (ops.foldl (step capacity) h).Sound capacity := by
  induction ops generalizing h with
  | nil => exact hs
  | cons op ops ih => exact ih (step_sound hs op)

/-- The items of a ring of `n` cells: `count` of them from `head` on. -/
def ring (n : Nat) (cells : Nat → α) (head count : Nat) : List α :=
  (List.range count).map fun k => cells ((head + k) % n)

@[simp] theorem ring_length (n : Nat) (cells : Nat → α) (head count : Nat) :
    (ring n cells head count).length = count := by simp [ring]

theorem ring_zero (n : Nat) (cells : Nat → α) (head : Nat) : ring n cells head 0 = [] := rfl

/-- Distinct offsets below `n` are distinct cells. -/
theorem offset_ne {n head a b : Nat} (hab : a < b) (hb : b < n) :
    (head + a) % n ≠ (head + b) % n := by
  intro h
  have hmod : Nat.ModEq n a b := Nat.ModEq.add_left_cancel' head h
  have := hmod.eq_of_lt_of_lt (by omega) hb
  omega

/-- Storing behind the last item appends it. -/
theorem ring_push {n head count : Nat} (cells : Nat → α) (item : α) (h : count < n) :
    ring n (Function.update cells ((head + count) % n) item) head (count + 1) =
      ring n cells head count ++ [item] := by
  unfold ring
  rw [List.range_succ, List.map_append, List.map_singleton, Function.update_self]
  congr 1
  refine List.map_congr_left fun k hk => ?_
  rw [List.mem_range] at hk
  exact Function.update_of_ne (offset_ne hk h) _ _

/-- Advancing the head drops the first item. -/
theorem ring_pop {n head count : Nat} (cells : Nat → α) (hh : head < n) :
    ring n cells head (count + 1) = cells head :: ring n cells ((head + 1) % n) count := by
  unfold ring
  rw [List.range_succ_eq_map, List.map_cons, Nat.add_zero, Nat.mod_eq_of_lt hh, List.map_map]
  congr 1
  refine List.map_congr_left fun k _ => ?_
  simp only [Function.comp, Nat.succ_eq_add_one, Nat.mod_add_mod]
  congr 2
  omega

end UniSdk.Library.BoundedFifo
