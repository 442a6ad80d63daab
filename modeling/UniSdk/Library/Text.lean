import Mathlib.Data.List.Basic

/-!
# Tests on text

`startswith` and substring tests on strings, read off their characters so that they can be
evaluated, the text behind a lead, and the replacement of two characters by one.
-/

namespace UniSdk.Library.Text

/-- `text.startswith(lead)`. -/
def startsWith (text lead : String) : Bool := lead.toList.isPrefixOf text.toList

/-- `needle in text`. -/
def contains (text needle : String) : Bool :=
  text.toList.tails.any (fun rest => needle.toList.isPrefixOf rest)

/-- The text behind a lead. -/
def afterLead (lead text : List Char) : Option (List Char) :=
  if lead.isPrefixOf text then some (text.drop lead.length) else none

theorem afterLead_eq_some {lead text rest : List Char} :
    afterLead lead text = some rest ↔ text = lead ++ rest := by
  unfold afterLead
  split
  · next h =>
    obtain ⟨rest', rfl⟩ := List.isPrefixOf_iff_prefix.mp h
    simp
  · next h =>
    refine ⟨nofun, fun heq => absurd ?_ h⟩
    exact List.isPrefixOf_iff_prefix.mpr ⟨rest, heq.symm⟩

/-- `str.replace` of the text `ab` by the character `r`: from left to right, without overlap. -/
def replacePair (a b r : Char) : List Char → List Char
  | c :: d :: text =>
    if c = a ∧ d = b then r :: replacePair a b r text else c :: replacePair a b r (d :: text)
  | text => text

section ReplacePair

variable {a b r c d : Char}

theorem replacePair_hit (text : List Char) :
    replacePair a b r (a :: b :: text) = r :: replacePair a b r text := by
  rw [replacePair, if_pos ⟨rfl, rfl⟩]

theorem replacePair_cons_of_ne (h : c ≠ a) (text : List Char) :
    replacePair a b r (c :: text) = c :: replacePair a b r text := by
  cases text with
  | nil => rfl
  | cons d text => rw [replacePair, if_neg fun heq => h heq.1]

theorem replacePair_miss (h : d ≠ b) (text : List Char) :
    replacePair a b r (c :: d :: text) = c :: replacePair a b r (d :: text) := by
  rw [replacePair, if_neg fun heq => h heq.2]

/-- The first character is kept, or it is the new one. -/
theorem replacePair_head (a b r d : Char) (text : List Char) :
    ∃ e text', replacePair a b r (d :: text) = e :: text' ∧ (e = d ∨ e = r) := by
  cases text with
  | nil => exact ⟨d, [], rfl, Or.inl rfl⟩
  | cons c text =>
    rw [replacePair]
    split
    · exact ⟨r, _, rfl, Or.inr rfl⟩
    · exact ⟨d, _, rfl, Or.inl rfl⟩

end ReplacePair

end UniSdk.Library.Text
