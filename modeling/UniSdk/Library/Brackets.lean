import Mathlib.Data.List.Count

/-!
# Brackets

A history in which things are entered and left, the last one entered first. Whoever keeps the
stack of what is open sees every history that obeys this, and in it each thing is left as often
as it is entered, up to what is still open.
-/

namespace UniSdk.Library.Brackets

variable {α : Type*}

inductive Bracket (α : Type*)
  | enter (a : α)
  | leave (a : α)
  deriving DecidableEq, Repr

variable [DecidableEq α]

/-- One bracket on the stack of what is open; only the innermost one can be left. -/
def bracketStep : Option (List α) → Bracket α → Option (List α)
  | some stack, .enter a => some (a :: stack)
  | some (b :: stack), .leave a => if a = b then some stack else none
  | _, _ => none

/-- What is open at the end, innermost first; none if something was left out of order. -/
def stillOpen (history : List (Bracket α)) : Option (List α) :=
  history.foldl bracketStep (some [])

theorem stillOpen_enter {history : List (Bracket α)} {stack : List α}
    (h : stillOpen history = some stack) (a : α) :
    stillOpen (history ++ [.enter a]) = some (a :: stack) := by
  unfold stillOpen at h ⊢
  rw [List.foldl_append, h]
  rfl

theorem stillOpen_leave {history : List (Bracket α)} {stack : List α} {a : α}
    (h : stillOpen history = some (a :: stack)) :
    stillOpen (history ++ [.leave a]) = some stack := by
  unfold stillOpen at h ⊢
  rw [List.foldl_append, h]
  exact if_pos rfl

theorem foldl_bracketStep_none (history : List (Bracket α)) :
    history.foldl bracketStep (none : Option (List α)) = none := by
  induction history with
  | nil => rfl
  | cons b history ih =>
    cases b with
    | enter a => exact ih
    | leave a => exact ih

/-- Each thing is entered as often as it is left and is still open. -/
theorem count_enter {history : List (Bracket α)} {stack : List α}
    (h : stillOpen history = some stack) (a : α) :
    history.count (.enter a) = history.count (.leave a) + stack.count a := by
  have hgeneral : ∀ (history : List (Bracket α)) (before after : List α),
      history.foldl bracketStep (some before) = some after →
      before.count a + history.count (.enter a) =
        history.count (.leave a) + after.count a := by
    intro history
    induction history with
    | nil =>
      intro before after h
      cases h
      simp
    | cons b history ih =>
      intro before after h
      rw [List.foldl_cons] at h
      cases b with
      | enter b =>
        have hrest := ih _ _ h
        simp only [List.count_cons, beq_iff_eq] at hrest
        simp only [List.count_cons, beq_iff_eq, Bracket.enter.injEq, reduceCtorEq, if_false]
        omega
      | leave b =>
        cases before with
        | nil =>
          exact absurd (h.symm.trans (foldl_bracketStep_none history)) (Option.some_ne_none _)
        | cons c before =>
          rw [bracketStep] at h
          split at h
          · next hb =>
            subst hb
            have hrest := ih _ _ h
            simp only [List.count_cons, beq_iff_eq, Bracket.leave.injEq, reduceCtorEq, if_false]
            omega
          · rw [foldl_bracketStep_none] at h
            cases h
  have hstart := hgeneral history [] stack h
  rw [List.count_nil, Nat.zero_add] at hstart
  exact hstart

end UniSdk.Library.Brackets
