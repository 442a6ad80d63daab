import Mathlib.Data.List.Basic

/-!
# Logs of fallible calls

A computation makes calls one after the other and gives up at the first one that does not
return zero. Its log is then a list of calls that returned zero, followed, when the computation
fails, by the one whose result it returns.
-/

namespace UniSdk.Library.CallLog

variable {ε : Type*} (result : ε → Int)

/-- The calls behind a result: all of them returned zero, or all but the last, which returned
the result. -/
def Ends (r : Int) (calls : List ε) : Prop :=
  (r = 0 ∧ ∀ e ∈ calls, result e = 0) ∨
    (r ≠ 0 ∧ ∃ ok last, calls = ok ++ [last] ∧ result last = r ∧ ∀ e ∈ ok, result e = 0)

variable {result}

theorem ends_nil : Ends result 0 [] := Or.inl ⟨rfl, fun _ h => nomatch h⟩

theorem ends_singleton (result : ε → Int) (e : ε) : Ends result (result e) [e] := by
  by_cases h : result e = 0
  · exact Or.inl ⟨h, fun x hx => List.mem_singleton.mp hx ▸ h⟩
  · exact Or.inr ⟨h, [], e, rfl, rfl, fun _ hx => nomatch hx⟩

/-- A successful part goes before anything. -/
theorem Ends.append {r : Int} {first rest : List ε} (hfirst : Ends result 0 first)
    (hrest : Ends result r rest) : Ends result r (first ++ rest) := by
  have hzero : ∀ e ∈ first, result e = 0 :=
    hfirst.elim And.right (fun h => absurd rfl h.1)
  rcases hrest with ⟨hr, hall⟩ | ⟨hr, ok, last, rfl, hlast, hok⟩
  · exact Or.inl ⟨hr, fun e he => (List.mem_append.mp he).elim (hzero e) (hall e)⟩
  · refine Or.inr ⟨hr, first ++ ok, last, (List.append_assoc _ _ _).symm, hlast, fun e he => ?_⟩
    exact (List.mem_append.mp he).elim (hzero e) (hok e)

/-- A call that failed is the last one, and its result is the computation's. -/
theorem Ends.failure {r : Int} {before after : List ε} {e : ε}
    (h : Ends result r (before ++ e :: after)) (he : result e ≠ 0) :
    r = result e ∧ after = [] := by
  rcases h with ⟨-, hall⟩ | ⟨-, ok, last, heq, hlast, hok⟩
  · exact absurd (hall e (List.mem_append_right _ List.mem_cons_self)) he
  · rcases List.eq_nil_or_concat after with rfl | ⟨init, final, rfl⟩
    · obtain ⟨-, hsame⟩ := List.append_inj' heq rfl
      rw [← hlast, ← (List.cons.inj hsame).1]
      exact ⟨rfl, rfl⟩
    · have hcut : (before ++ e :: init) ++ [final] = ok ++ [last] := by
        rw [← heq, List.append_assoc, List.concat_eq_append]
        rfl
      obtain ⟨rfl, -⟩ := List.append_inj' hcut rfl
      exact absurd (hok e (List.mem_append_right _ List.mem_cons_self)) he

end UniSdk.Library.CallLog
