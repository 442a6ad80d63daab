import Mathlib.Data.List.Basic

/-!
# Streams that are consumed piece by piece

A consumer hands on what it takes from a stream, translated element by element. Whatever the
pieces are, what it has handed on is the translation of a prefix, and the rest is still there.
-/

namespace UniSdk.Library.Streams

variable {α β : Type*}

/-- `returned` is the translation of what has been consumed of `received`; `rest` is what has
not. -/
def Consumed (f : α → β) (received : List α) (returned : List β) (rest : List α) : Prop :=
  ∃ consumed, received = consumed ++ rest ∧ returned = consumed.map f

namespace Consumed

variable {f : α → β} {received rest : List α} {returned : List β}

theorem start : Consumed f [] [] [] := ⟨[], rfl, rfl⟩

/-- More of the stream arrives. -/
theorem receive (h : Consumed f received returned rest) (piece : List α) :
    Consumed f (received ++ piece) returned (rest ++ piece) := by
  obtain ⟨consumed, hreceived, hreturned⟩ := h
  exact ⟨consumed, by rw [hreceived, List.append_assoc], hreturned⟩

/-- A piece is taken and handed on. -/
theorem take (taken : List α) (h : Consumed f received returned (taken ++ rest)) :
    Consumed f received (returned ++ taken.map f) rest := by
  obtain ⟨consumed, hreceived, hreturned⟩ := h
  refine ⟨consumed ++ taken, ?_, ?_⟩
  · rw [hreceived, List.append_assoc]
  · rw [hreturned, List.map_append]

theorem returned_eq (h : Consumed f received returned rest) :
    returned = (received.take returned.length).map f := by
  obtain ⟨consumed, hreceived, hreturned⟩ := h
  rw [hreceived, hreturned, List.length_map, List.take_left]

theorem rest_eq (h : Consumed f received returned rest) :
    rest = received.drop returned.length := by
  obtain ⟨consumed, hreceived, hreturned⟩ := h
  rw [hreceived, hreturned, List.length_map, List.drop_left]

/-- The last element of what is taken next. -/
theorem last_taken {taken : List α} (h : Consumed f received returned (taken ++ rest))
    (htaken : taken ≠ []) :
    received[returned.length + taken.length - 1]? = taken.getLast? := by
  obtain ⟨consumed, hreceived, hreturned⟩ := h
  have hpos := List.length_pos_iff.mpr htaken
  have hindex : returned.length + taken.length - 1 = consumed.length + (taken.length - 1) := by
    rw [hreturned, List.length_map]
    omega
  rw [hindex, hreceived, List.getElem?_append_right (Nat.le_add_right _ _), Nat.add_sub_cancel_left,
    List.getElem?_append_left (by omega), List.getLast?_eq_getElem?]

end Consumed

/-- The elements through the first that satisfies `p`, and no more than `n`. -/
def upTo (p : α → Bool) : Nat → List α → List α
  | 0, _ => []
  | _ + 1, [] => []
  | n + 1, a :: l => if p a then [a] else a :: upTo p n l

variable (p : α → Bool)

theorem upTo_append_drop (n : Nat) (l : List α) :
    upTo p n l ++ l.drop (upTo p n l).length = l := by
  induction n generalizing l with
  | zero => rfl
  | succ n ih =>
    cases l with
    | nil => rfl
    | cons a l =>
      rw [upTo]
      split
      · rfl
      · rw [List.cons_append, List.length_cons, List.drop_succ_cons, ih]

theorem upTo_length_le (n : Nat) (l : List α) : (upTo p n l).length ≤ n := by
  induction n generalizing l with
  | zero => exact Nat.le_refl 0
  | succ n ih =>
    cases l with
    | nil => exact Nat.zero_le _
    | cons a l =>
      rw [upTo]
      split
      · exact Nat.succ_le_succ (Nat.zero_le n)
      · exact Nat.succ_le_succ (ih l)

/-- Only the last element can satisfy `p`. -/
theorem upTo_any (n : Nat) (l : List α) : (upTo p n l).any p = (upTo p n l).getLast?.any p := by
  induction n generalizing l with
  | zero => rfl
  | succ n ih =>
    cases l with
    | nil => rfl
    | cons a l =>
      rw [upTo]
      split
      · simp
      · next ha =>
        rw [List.any_cons, ih l, Bool.eq_false_iff.mpr ha, Bool.false_or]
        cases hl : upTo p n l with
        | nil => simp [ha]
        | cons b t => rw [List.getLast?_cons_cons]

end UniSdk.Library.Streams
