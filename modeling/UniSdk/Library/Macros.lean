import Mathlib
import UniSdk.Library.Defines
import UniSdk.Library.Lines

/-!
# Macros with values of any kind

A line that defines a macro: the name goes up to a blank and the rest of the line is the value. Lines
whose names are identifiers and whose values do not go over the end of the line are read back.
-/

namespace UniSdk.Library.Macros

open Library.Defines (directive isIdentChar)
open Library.Lines
open Library.Text (afterLead afterLead_eq_some)

/-- The line that defines the macro. -/
def defineLine (define : Line × Line) : Line := directive ++ define.1 ++ ' ' :: define.2

/-- The macro that a line defines, as the preprocessor sees it. -/
def readDefine (line : Line) : Option (Line × Line) :=
  (afterLead directive line).map fun rest =>
    (rest.takeWhile (· ≠ ' '), (rest.dropWhile (· ≠ ' ')).drop 1)

def readHeader (text : List Char) : List (Line × Line) := (splitlines text).filterMap readDefine

/-! ### Identifiers -/

theorem identChar_range {c : Char} (h : isIdentChar c = true) :
    48 ≤ c.toNat ∧ c.toNat ≤ 57 ∨ 65 ≤ c.toNat ∧ c.toNat ≤ 90 ∨ 97 ≤ c.toNat ∧ c.toNat ≤ 122 ∨
      c.toNat = 95 := by
  simp only [isIdentChar, Char.isAlphanum, Char.isAlpha, Char.isUpper, Char.isLower, Char.isDigit,
    Bool.or_eq_true, Bool.and_eq_true, decide_eq_true_eq] at h
  rcases h with ((h | h) | h) | h
  · exact .inr (.inl h)
  · exact .inr (.inr (.inl h))
  · exact .inl h
  · exact .inr (.inr (.inr (by rw [h]; rfl)))

theorem identChar_toUpper {c : Char} (h : isIdentChar c = true) :
    isIdentChar c.toUpper = true := by
  have hascii : ∀ n : Fin 128, isIdentChar (Char.ofNat n) = true →
      isIdentChar (Char.ofNat n).toUpper = true := by decide +kernel
  have hc : c.toNat < 128 := by
    have := identChar_range h
    omega
  have := hascii ⟨c.toNat, hc⟩
  rw [Char.ofNat_toNat] at this
  exact this h

theorem identChar_toString (n : Nat) : ∀ c ∈ (toString n).toList, isIdentChar c = true := by
  intro c hc
  rw [Nat.toString_eq_repr, Nat.repr, String.toList_ofList] at hc
  have hdigit := Nat.isDigit_of_mem_toDigits (by decide) (by decide) hc
  simp [isIdentChar, Char.isAlphanum, hdigit]

theorem identChar_unbroken {line : Line} (h : ∀ c ∈ line, isIdentChar c = true) :
    Unbroken line := by
  intro c hc
  have hrange := identChar_range (h c hc)
  rw [isLineEnd, decide_eq_false_iff_not]
  omega

theorem all_intercalate {p : Char → Prop} {sep : Line} {parts : List Line}
    (hsep : ∀ c ∈ sep, p c) (h : ∀ part ∈ parts, ∀ c ∈ part, p c) :
    ∀ c ∈ List.intercalate sep parts, p c := by
  induction parts with
  | nil => exact nofun
  | cons part parts ih =>
    have hrest := ih fun l hl => h l (List.mem_cons_of_mem _ hl)
    intro c hc
    by_cases hnil : parts = []
    · subst hnil
      rw [List.intercalate_singleton] at hc
      exact h part List.mem_cons_self c hc
    · rw [List.intercalate_cons_of_ne_nil hnil, List.mem_append, List.mem_append] at hc
      rcases hc with (hc | hc) | hc
      · exact h part List.mem_cons_self c hc
      · exact hsep c hc
      · exact hrest c hc

/-! ### Reading back -/

theorem readDefine_defineLine {define : Line × Line}
    (h : ∀ c ∈ define.1, isIdentChar c = true) : readDefine (defineLine define) = some define := by
  obtain ⟨name, value⟩ := define
  have hname : ∀ c ∈ name, decide (c ≠ ' ') = true := by
    intro c hc
    rw [decide_eq_true_eq]
    rintro rfl
    exact absurd (h ' ' hc) (by decide)
  have hlead : afterLead directive (defineLine (name, value)) = some (name ++ ' ' :: value) :=
    afterLead_eq_some.mpr (List.append_assoc ..)
  rw [readDefine, hlead, Option.map_some,
    List.takeWhile_append_of_pos hname, List.dropWhile_append_of_pos hname]
  simp

theorem unbroken_defineLine {define : Line × Line} (hname : ∀ c ∈ define.1, isIdentChar c = true)
    (hvalue : Unbroken define.2) : Unbroken (defineLine define) := by
  have hlead : Unbroken directive := unbroken_of_any (by decide)
  have hblank : Unbroken [' '] := unbroken_of_any (by decide)
  have hrest := hblank.append hvalue
  exact (hlead.append (identChar_unbroken hname)).append hrest

/-- A header is read back: lines that define nothing, the definitions, and an empty end. -/
theorem readHeader_joinLines {bare : List Line} {defines : List (Line × Line)}
    (hbare : ∀ line ∈ bare, Unbroken line ∧ readDefine line = none)
    (hdefines : ∀ define ∈ defines, (∀ c ∈ define.1, isIdentChar c = true) ∧ Unbroken define.2) :
    readHeader (joinLines (bare ++ defines.map defineLine ++ [[]])) = defines := by
  have hlines : ∀ line ∈ bare ++ defines.map defineLine ++ [[]], Unbroken line := by
    intro line hline
    rw [List.mem_append, List.mem_append, List.mem_map, List.mem_singleton] at hline
    rcases hline with (hline | ⟨define, hdefine, rfl⟩) | rfl
    · exact (hbare line hline).1
    · exact unbroken_defineLine (hdefines define hdefine).1 (hdefines define hdefine).2
    · exact nofun
  obtain ⟨lost, hlost, hempty⟩ := splitlines_joinLines hlines
  have hnone : lost.filterMap readDefine = [] := by
    rw [List.filterMap_eq_nil_iff]
    intro line hline
    rw [hempty line hline]
    rfl
  have hsplit : (bare ++ defines.map defineLine ++ [[]]).filterMap readDefine =
      readHeader (joinLines (bare ++ defines.map defineLine ++ [[]])) := by
    conv_lhs => rw [hlost]
    rw [List.filterMap_append, hnone, List.append_nil]
    rfl
  have hread : (defines.map defineLine).filterMap readDefine = defines := by
    rw [List.filterMap_map]
    refine (List.filterMap_congr fun define hdefine => ?_).trans List.filterMap_some
    exact readDefine_defineLine (hdefines define hdefine).1
  rw [← hsplit, List.filterMap_append, List.filterMap_append,
    List.filterMap_eq_nil_iff.mpr fun line hline => (hbare line hline).2, hread, List.nil_append]
  exact List.append_nil _

end UniSdk.Library.Macros
