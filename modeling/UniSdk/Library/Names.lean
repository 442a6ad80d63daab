import Mathlib

/-!
# Names in alphabetical order

Names are compared character by character, a name before its continuations. Decimal numerals of as
many digits are in the order of their numbers, whatever follows them. A list that is sorted falls
into the items below a mark and the others.
-/

namespace UniSdk.Library.Names

/-- The order of `strcmp`. -/
def nameLe : List Char → List Char → Bool
  | [], _ => true
  | _ :: _, [] => false
  | a :: as, b :: bs => decide (a.toNat < b.toNat) || (decide (a = b) && nameLe as bs)

theorem nameLe_append (front as bs : List Char) :
    nameLe (front ++ as) (front ++ bs) = nameLe as bs := by
  induction front with
  | nil => rfl
  | cons c front ih => simp [nameLe, ih]

theorem nameLe_cons (a b : Char) (as bs : List Char) :
    nameLe (a :: as) (b :: bs) = true ↔
      a.toNat < b.toNat ∨ (a.toNat = b.toNat ∧ nameLe as bs = true) := by
  simp [nameLe, Char.toNat_inj]

/-! ### Numerals -/

theorem digit_range {c : Char} (h : c.isDigit = true) : 48 ≤ c.toNat ∧ c.toNat < 58 := by
  simp only [Char.isDigit, Bool.and_eq_true, decide_eq_true_eq, ge_iff_le, UInt32.le_iff_toNat_le]
    at h
  exact ⟨h.1, Nat.lt_succ_of_le h.2⟩

/-- The first digit decides more than all that follow. -/
theorem ofDigitChars_cons_zero (c : Char) (cs : List Char) :
    Nat.ofDigitChars 10 (c :: cs) 0 =
      10 ^ cs.length * (c.toNat - 48) + Nat.ofDigitChars 10 cs 0 := by
  rw [Nat.ofDigitChars_cons, Nat.mul_zero, Nat.zero_add]
  exact Nat.ofDigitChars_eq_ofDigitChars_zero

theorem ofDigitChars_lt {cs : List Char} (h : ∀ c ∈ cs, c.isDigit = true) :
    Nat.ofDigitChars 10 cs 0 < 10 ^ cs.length := by
  induction cs with
  | nil => simp
  | cons c cs ih =>
    have hrange := digit_range (h c List.mem_cons_self)
    have hrest := ih fun d hd => h d (List.mem_cons_of_mem c hd)
    have hle := Nat.mul_le_mul_left (10 ^ cs.length) (show c.toNat - 48 ≤ 9 by omega)
    rw [ofDigitChars_cons_zero, List.length_cons, Nat.pow_succ]
    omega

/-- As many digits: the numbers decide, and what follows only where they are equal. -/
theorem nameLe_digits {as bs : List Char} (hlength : as.length = bs.length)
    (has : ∀ c ∈ as, c.isDigit = true) (hbs : ∀ c ∈ bs, c.isDigit = true) (s t : List Char) :
    nameLe (as ++ s) (bs ++ t) = true ↔
      Nat.ofDigitChars 10 as 0 < Nat.ofDigitChars 10 bs 0 ∨
        (Nat.ofDigitChars 10 as 0 = Nat.ofDigitChars 10 bs 0 ∧ nameLe s t = true) := by
  induction as generalizing bs with
  | nil =>
    obtain rfl := List.eq_nil_of_length_eq_zero hlength.symm
    simp
  | cons a as ih =>
    obtain _ | ⟨b, bs⟩ := bs
    · cases hlength
    · have hrest := Nat.succ.inj hlength
      have ha := fun c hc => has c (List.mem_cons_of_mem a hc)
      have hb := fun c hc => hbs c (List.mem_cons_of_mem b hc)
      have harange := digit_range (has a List.mem_cons_self)
      have hbrange := digit_range (hbs b List.mem_cons_self)
      have halt := ofDigitChars_lt ha
      have hblt := ofDigitChars_lt hb
      rw [List.cons_append, List.cons_append, nameLe_cons, ih hrest ha hb,
        ofDigitChars_cons_zero, ofDigitChars_cons_zero, ← hrest]
      rw [← hrest] at hblt
      rcases Nat.lt_trichotomy a.toNat b.toNat with hlt | heq | hgt
      · have hstep := Nat.mul_le_mul_left (10 ^ as.length)
          (show a.toNat - 48 + 1 ≤ b.toNat - 48 by omega)
        rw [Nat.mul_succ] at hstep
        exact ⟨fun _ => .inl (by omega), fun _ => .inl hlt⟩
      · simp only [heq, Nat.lt_irrefl, false_or, true_and, Nat.add_lt_add_iff_left,
          Nat.add_left_cancel_iff]
      · have hstep := Nat.mul_le_mul_left (10 ^ as.length)
          (show b.toNat - 48 + 1 ≤ a.toNat - 48 by omega)
        rw [Nat.mul_succ] at hstep
        exact ⟨fun h => by omega, fun h => by omega⟩

theorem nameLe_numbers {m n : Nat}
    (hlength : (Nat.toDigits 10 m).length = (Nat.toDigits 10 n).length) (s t : List Char) :
    nameLe (Nat.toDigits 10 m ++ s) (Nat.toDigits 10 n ++ t) = true ↔
      m < n ∨ (m = n ∧ nameLe s t = true) := by
  have hdigits : ∀ k, ∀ c ∈ Nat.toDigits 10 k, c.isDigit = true := fun k c hc =>
    Nat.isDigit_of_mem_toDigits (by decide) (by decide) hc
  rw [nameLe_digits hlength (hdigits m) (hdigits n), Nat.ofDigitChars_ten_toDigits,
    Nat.ofDigitChars_ten_toDigits]

/-! ### Marks in a sorted list -/

/-- Where nothing below the mark stands behind something that is not, the list falls into two. -/
theorem sorted_split {α : Type*} {R : α → α → Prop} {p : α → Bool} {l : List α}
    (hsorted : l.Pairwise R) (hdown : ∀ a b, R a b → p b = true → p a = true) :
    l = l.filter p ++ l.filter fun a => !p a := by
  induction hsorted with
  | nil => rfl
  | @cons a l hfirst hrest ih =>
    cases hp : p a with
    | true =>
      rw [List.filter_cons_of_pos hp, List.filter_cons_of_neg (by simp [hp]), List.cons_append, ← ih]
    | false =>
      have hnone : l.filter p = [] := by
        refine List.filter_eq_nil_iff.mpr fun b hb hpb => ?_
        rw [hdown a b (hfirst b hb) hpb] at hp
        cases hp
      rw [hnone, List.nil_append] at ih
      rw [List.filter_cons_of_neg (by simp [hp]), List.filter_cons_of_pos (by simp [hp]), hnone,
        List.nil_append, ← ih]

end UniSdk.Library.Names
